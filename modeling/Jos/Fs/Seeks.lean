import Jos.Fs.Copies

/-!
# Seek positions

`file_read` and `file_write` take the offset from the descriptor, where a
client can store anything. Positions below 2^31 are inside the file's blocks.
From a position less than a block before the start, the quotient is block 0
and the remainder is negative: the copy is from the block that precedes block 0
on the disk. From further back the loop gives up, unless `pos < offset + count`
has already wrapped around, and then nothing is copied at all.
-/

namespace Jos.Fs

open Lib

def Move.disk (toDisk : Bool) (m : Move) : Nat := if toDisk then m.dst else m.src

def Owns (V : Volume) (w : Words) (x b : Nat) : Prop := Holds V w (.table x) b ∨ ∃ n, Holds V w (.block x n) b

/-- Block `b` was the file's in `w`, or was free then and is the file's in `w'`. -/
def Belongs (V : Volume) (x : Nat) (w w' : Words) (b : Nat) : Prop :=
  Owns V w x b ∨ (b < V.N ∧ w.free b = true ∧ ∃ n, Holds V w' (.block x n) b)

/-- The bytes of the disk that were copied between `s` and `t` are the file's. -/
def Inside (toDisk : Bool) (V : Volume) (x : Nat) (s t : Fs) : Prop :=
  ∃ l, t.moves = s.moves ++ l ∧ ∀ m ∈ l, ∀ a, m.disk toDisk ≤ a → a < m.disk toDisk + m.len →
    ∃ b, InBlock b (a / 4) ∧ Belongs V x s.words t.words b

def ReadOk (V : Volume) (s : Fs) (x buf : Nat) (count offset : Word) : Prop :=
  ∀ r t, exec (fileRead (4 * x) buf count offset) s = (r, t) →
    Inside false V x s t ∧ (∀ k : Nat, r = .ok k → Copies false s buf (buf + k) t) ∧ 0 ≤ (t.words (x + 32)).toInt

/-- `f_size` is looked at after `file_set_size` and at the end. -/
def WriteOk (V : Volume) (s : Fs) (x buf : Nat) (count offset : Word) : Prop :=
  (s.words (x + 32) < offset + count → ∀ r u, exec (fileSetSize (4 * x) (offset + count)) s = (r, u) →
    0 ≤ (u.words (x + 32)).toInt) ∧
  ∀ r t, exec (fileWrite (4 * x) buf count offset) s = (r, t) → Inside true V x s t ∧ 0 ≤ (t.words (x + 32)).toInt

/-- The block that `file_get_block` returns for block 0. -/
def First (V : Volume) (w : Words) (x b : Nat) : Prop :=
  if w.ptr x 0 ≠ 0 then b = (w.ptr x 0).toNat else b < V.N ∧ w.free b = true ∧ ∀ c < b, w.free c = false

def behind (offset : Word) : Nat := 2 ^ 32 - offset.toNat

def ReadSafe (V : Volume) (w : Words) (x : Nat) (count offset : Word) : Prop :=
  offset.toNat < 2 ^ 31 ∨
    if behind offset ≤ min count.toNat ((w (x + 32)).toNat + behind offset) then
      2 ^ 31 ≤ min count.toNat ((w (x + 32)).toNat + behind offset)
    else count = 0 ∨ blksize ≤ behind offset ∨ ∀ b, First V w x b → Owns V w x (b - 1)

section
variable {V : Volume} {s t u : Fs} {w w' : Words} {x buf : Nat} {d : Bool} {count offset : Word}

/-! ## Positions in the file -/

theorem Inside.refl (h : t.moves = s.moves) : Inside d V x s t := by
  refine ⟨[], by rw [h, List.append_nil], fun m hm => ?_⟩
  exact absurd hm List.not_mem_nil

theorem Belongs.mono (h : Belongs V x w w' b)
    (hkeep : ∀ k < ndirect + nindirect, w'.ptr x k ≠ 0 → w''.ptr x k = w'.ptr x k) : Belongs V x w w'' b := by
  refine h.imp_right fun ⟨hb, hf, n, hx, hn, hne, heq⟩ => ⟨hb, hf, n, hx, hn, ?_⟩
  rw [hkeep n (Nat.lt_of_lt_of_le hn V.cover_le) hne]
  exact ⟨hne, heq⟩

theorem Inside.mono (h : Inside d V x s t) (hm : u.moves = t.moves)
    (hkeep : ∀ k < ndirect + nindirect, t.words.ptr x k ≠ 0 → u.words.ptr x k = t.words.ptr x k) : Inside d V x s u := by
  obtain ⟨l, hl, hin⟩ := h
  refine ⟨l, hm.trans hl, fun m hml a hla hua => ?_⟩
  obtain ⟨b, hb, hbel⟩ := hin m hml a hla hua
  exact ⟨b, hb, hbel.mono hkeep⟩

theorem Inside.snoc {m : Move} (h : Inside d V x s t) (hm : u.moves = t.moves ++ [m])
    (hkeep : ∀ k < ndirect + nindirect, t.words.ptr x k ≠ 0 → u.words.ptr x k = t.words.ptr x k)
    (hnew : ∀ a, m.disk d ≤ a → a < m.disk d + m.len → ∃ b, InBlock b (a / 4) ∧ Belongs V x s.words u.words b) :
    Inside d V x s u := by
  obtain ⟨l, hl, hin⟩ := h
  refine ⟨l ++ [m], by rw [hm, hl, List.append_assoc], fun m' hml a hla hua => ?_⟩
  rcases List.mem_append.1 hml with hml | hml
  · obtain ⟨b, hb, hbel⟩ := hin m' hml a hla hua
    exact ⟨b, hb, hbel.mono hkeep⟩
  · rw [List.mem_singleton.1 hml] at hla hua
    exact hnew a hla hua

theorem Filled.belongs (h : Filled V x lo hi w w') (hx : V.file x) (hk : k < V.cover x) (hne : w'.ptr x k ≠ 0) :
    Belongs V x w w' (w'.ptr x k).toNat := by
  by_cases h0 : w.ptr x k = 0
  · have hheld : Holds V w' (.block x k) (w'.ptr x k).toNat := ⟨hx, hk, hne, rfl⟩
    exact .inr ⟨(h.ok.owned.pool hheld).upper, h.fresh k hk h0 hne, k, hheld⟩
  · rw [h.grows.ptr x k hx (Nat.lt_of_lt_of_le hk V.cover_le) h0]
    exact .inl (.inr ⟨k, hx, hk, h0, rfl⟩)

theorem disk_copy (u : Fs) (d : Bool) (data buf len : Nat) :
    ∃ m : Move, (u.copy d data buf len).moves = u.moves ++ [m] ∧ m.disk d = data ∧ m.len = len := by
  cases d with
  | true => exact ⟨_, rfl, rfl, rfl⟩
  | false => exact ⟨_, rfl, rfl, rfl⟩

theorem lastSlot_moved {pos stop : Word} (hp : pos.toNat < maxfilesize) :
    lastSlot pos.toNat (pos.toNat + moved pos stop) ≤ ndirect + nindirect := by
  unfold maxfilesize blksize at hp
  unfold lastSlot
  split
  · rename_i hlt
    have hend : pos.toNat + moved pos stop ≤ maxfilesize := by
      unfold moved maxfilesize ndirect nindirect blksize at *
      simp only [BitVec.lt_def] at *
      split_ifs at * <;> omega
    unfold maxfilesize at hend
    unfold blocksFor blksize at *
    omega
  · unfold blksize
    omega

theorem copyBlocks_still {pos stop : Word} {E : Panic → Fs → Prop} (hm : moved pos stop = 0) :
    Triple (copyBlocks d f stop (k + 1) buf pos) s (fun r t => s = t ∧ r = loopResult pos stop) E := by
  rw [copyBlocks]
  refine .ite (fun hlt => ?_) fun hge => .pure ⟨rfl, (if_pos (reaches_of_ge hge)).symm⟩
  have hn : ndirect + nindirect ≤ (pos.sdiv 4096#32).toNat := by
    by_contra hsmall
    obtain ⟨hpos, -, hnext, -⟩ := moved_next hlt (Nat.lt_of_not_le hsmall)
    omega
  refine .bind (fileGetBlock_inval hn) ?_
  rintro _ _ ⟨rfl, rfl⟩
  exact .pure ⟨rfl, (if_neg (moved_end hlt hn).2).symm⟩

theorem moved_past {pos stop : Word} (hp : pos.toNat < 2 ^ 31) (hmax : maxfilesize ≤ pos.toNat) : moved pos stop = 0 := by
  unfold moved
  split_ifs <;> omega

/-- From a position in the file the loop stays inside, whether it is stopped or not. -/
theorem copyBlocks_inside (h : DiskOk V s.words) (hx : V.file x) (hd : s.words.Data V x) {pos stop : Word}
    (hp : pos.toNat < 2 ^ 31) (hcov : V.cover x = ndirect + nindirect)
    (hz : s.words.Slots x pos.toNat (pos.toNat + moved pos stop) ∨ s.words.Clean V.N)
    (hbuf : ∀ a, buf ≤ a → a < buf + moved pos stop → ¬ OnDisk V.N (a / 4))
    (hk : stop.toNat < pos.toNat + (k + 1)) :
    Triple (copyBlocks d (4 * x) stop (k + 1) buf pos) s
      (fun _ t => Inside d V x s t ∧ t.words (x + 32) = s.words (x + 32))
      (fun _ t => Inside d V x s t ∧ t.words (x + 32) = s.words (x + 32)) := by
  by_cases hmax : maxfilesize ≤ pos.toNat
  · refine (copyBlocks_still (moved_past hp hmax)).imp ?_
    rintro _ _ ⟨rfl, -⟩
    exact ⟨.refl rfl, rfl⟩
  replace hcov : lastSlot pos.toNat (pos.toNat + moved pos stop) ≤ V.cover x := hcov ▸ lastSlot_moved (by omega)
  have hcap := @V.cover_le x
  have hquiet : BufferOk d V x s.words buf (moved pos stop) := fun a hl hu =>
    ⟨.of_off h hx (hbuf a hl hu), fun _ => hbuf a hl hu⟩
  have hrule : Triple (copyBlocks d (4 * x) stop (k + 1) (buf + (pos.toNat - pos.toNat)) pos) s _ _ :=
    copyBlocks_rule (I := fun p t => AtRound pos.toNat stop.toNat p ∧ Copied d V x pos.toNat p buf s t ∧ Inside d V x s t)
      (E := fun _ t => Inside d V x s t ∧ t.words (x + 32) = s.words (x + 32))
      ?_ hk (Nat.succ_pos k) hp (Nat.le_refl _) ⟨.inl rfl, .refl h hd, .refl rfl⟩
  · rw [Nat.sub_self, Nat.add_zero] at hrule
    refine hrule.imp ?_
    rintro r t ⟨-, -, hc, hin⟩
    exact ⟨hin, hc.attr hx hx (by omega) hcov fun _ a hl hu => hbuf a hl (by omega)⟩
  · rintro p t hlo hlt hmax ⟨hal, hc, hin⟩
    have hend := add_moved pos stop (by omega) (by omega)
    have hattr : t.words (x + 32) = s.words (x + 32) := by
      refine hc.attr hx hx (by omega) (Nat.le_trans ?_ hcov) fun _ a hl hu => hbuf a hl (by omega)
      unfold lastSlot blocksFor blksize
      split <;> split <;> omega
    refine ((copyStep hc hal hlo hlt hmax hx hcov hz hquiet).and (fileGetBlock_result _ _ t)).mono ?_ ?_
    · rintro _ u ⟨⟨b, v, rfl, hend', hg, hv, hsame, hal', hc'⟩, hmoves, -⟩
      rw [← hv] at hc' hsame
      obtain ⟨m, hm, hdisk, hlen⟩ := disk_copy u d (4 * blockIx b.toNat + p % blksize) (buf + (p - pos.toNat)) (chunk p stop.toNat)
      refine ⟨_, rfl, hend', hal', hc', hin.snoc (hm.trans (by rw [hmoves])) ?_ ?_⟩
      · intro k hk hne
        rw [hsame.ptr x k hx hk, hg.grows.ptr x k hx hk hne]
      · intro a hla hua
        have hslot : p / blksize < lastSlot pos.toNat (pos.toNat + moved pos stop) := by
          rw [hend, lastSlot, if_pos (by omega)]
          exact div_lt_blocksFor (by omega)
        have hptr := (hsame.ptr x (p / blksize) hx (by omega)).trans hg.self
        have hbel := hc'.filled.belongs hx (k := p / blksize) (by omega) (fun h0 => hg.nonzero (hptr.symm.trans h0))
        rw [hptr] at hbel
        refine ⟨b.toNat, ?_, hbel⟩
        have hle : chunk p stop.toNat ≤ blksize - p % blksize := Nat.min_le_left ..
        unfold InBlock
        unfold blksize at *
        omega
    · rintro e u ⟨⟨-, hspoil⟩, hmoves⟩
      exact ⟨hin.mono hmoves hspoil.ptr, hspoil.size.trans hattr⟩

theorem size_nonneg (h : (w (x + 32)).toNat ≤ maxfilesize) : 0 ≤ (w (x + 32)).toInt := by
  unfold maxfilesize ndirect nindirect blksize at h
  rw [toInt_of_lt (by omega)]
  omega

theorem fileRead_inside (h : DiskOk V s.words) (hx : V.file x) (hd : s.words.Data V x)
    (hcov : V.cover x = ndirect + nindirect) (hoff : offset.toNat < 2 ^ 31)
    (hz : s.words.Slots x offset.toNat (offset.toNat + readSpan (s.words (x + 32)) offset count) ∨ s.words.Clean V.N)
    (hbuf : ∀ a, buf ≤ a → a < buf + readSpan (s.words (x + 32)) offset count → ¬ OnDisk V.N (a / 4)) :
    Triple (fileRead (4 * x) buf count offset) s
      (fun _ t => Inside false V x s t ∧ t.words (x + 32) = s.words (x + 32))
      (fun _ t => Inside false V x s t ∧ t.words (x + 32) = s.words (x + 32)) := by
  unfold fileRead
  rw [fSize_eq]
  refine .bind (load_ok rfl _) ?_
  rintro _ _ ⟨rfl, rfl⟩
  unfold readSpan at hz hbuf
  refine .ite (fun hle => .pure ⟨.refl rfl, rfl⟩) fun hgt => ?_
  rw [if_neg hgt] at hz hbuf
  have hle := toNat_add_le offset (minWord count (s.words (x + 32) - offset))
  refine .bind (copyBlocks_inside h hx hd hoff hcov hz hbuf (by omega)) ?_
  rintro r t ht
  cases r with
  | error e => exact .pure ht
  | ok _ => exact .pure ht

theorem readResult_eq {size : Word} (hsize : size.toNat ≤ maxfilesize) (hoff : offset.toNat < 2 ^ 31) :
    readResult size offset count = readSpan size offset count := by
  have hbound : maxfilesize < 2 ^ 31 := by decide
  unfold readResult readSpan
  split
  · rfl
  · rename_i hgt
    rw [toInt_of_lt (by omega), toInt_of_lt hoff] at hgt
    have hlen : (minWord count (size - offset)).toNat ≤ size.toNat - offset.toNat := by
      rw [toNat_minWord, toNat_sub_of_lt (BitVec.lt_def.2 (by omega))]
      exact Nat.min_le_right ..
    have hstop : (offset + minWord count (size - offset)).toNat = offset.toNat + (minWord count (size - offset)).toNat := by
      rw [BitVec.toNat_add, Nat.mod_eq_of_lt (by omega)]
    obtain ⟨hmoved, hres⟩ := moved_inside hstop (by omega)
    have hreach : Reaches offset (offset + minWord count (size - offset)) := by
      by_contra hno
      rw [loopResult, if_neg hno] at hres
      cases hres
    rw [if_pos hreach, hmoved, toInt_of_lt (by omega)]

theorem readOk_inside (h : DiskOk V s.words) (hx : V.file x) (hd : s.words.Data V x)
    (hcov : V.cover x = ndirect + nindirect) (hsize : (s.words (x + 32)).toNat ≤ maxfilesize) (hoff : offset.toNat < 2 ^ 31)
    (hz : s.words.Slots x offset.toNat (offset.toNat + readSpan (s.words (x + 32)) offset count) ∨ s.words.Clean V.N)
    (hbuf : ∀ a, buf ≤ a → a < buf + readSpan (s.words (x + 32)) offset count → ¬ OnDisk V.N (a / 4)) :
    ReadOk V s x buf count offset := by
  have hread := (fileRead_inside h hx hd hcov hoff hz hbuf).and (fileRead_moves (4 * x) buf count offset s)
  have hnonneg := size_nonneg hsize
  rintro r t hexec
  cases r with
  | ok r =>
    obtain ⟨⟨hin, hsame⟩, hc, hr⟩ := hread.ok hexec
    refine ⟨hin, fun k hk => ?_, hsame ▸ hnonneg⟩
    have hval : readResult (s.words (x + 32)) offset count = k := hr.symm.trans (Except.ok.inj hk)
    rw [readResult_eq hsize hoff] at hval
    rw [← Int.ofNat.inj hval]
    exact hc
  | error e =>
    obtain ⟨⟨hin, hsame⟩, -⟩ := hread.error hexec
    refine ⟨hin, fun k hk => ?_, hsame ▸ hnonneg⟩
    cases hk

/-! ## Positions before the file -/

theorem fileRead_still {E : Panic → Fs → Prop} (hgt : ¬ (s.words (x + 32)).toInt ≤ offset.toInt)
    (hm : readSpan (s.words (x + 32)) offset count = 0) :
    Triple (fileRead (4 * x) buf count offset) s
      (fun r t => s = t ∧ r = readResult (s.words (x + 32)) offset count) E := by
  unfold readSpan at hm
  rw [if_neg hgt] at hm
  unfold fileRead readResult
  rw [fSize_eq, if_neg hgt]
  refine .bind (load_ok rfl _) ?_
  rintro _ _ ⟨rfl, rfl⟩
  refine .ite (fun hle => absurd hle hgt) fun _ => .bind (copyBlocks_still hm) ?_
  rintro _ _ ⟨rfl, rfl⟩
  unfold loopResult
  by_cases hr : Reaches offset (offset + minWord count (s.words (x + 32) - offset))
  · rw [if_pos hr, if_pos hr]
    exact .pure ⟨rfl, rfl⟩
  · rw [if_neg hr, if_neg hr]
    exact .pure ⟨rfl, rfl⟩

theorem readOk_still_iff (hgt : ¬ (s.words (x + 32)).toInt ≤ offset.toInt)
    (hm : readSpan (s.words (x + 32)) offset count = 0) (hsize : (s.words (x + 32)).toNat ≤ maxfilesize) :
    ReadOk V s x buf count offset ↔ readResult (s.words (x + 32)) offset count ≤ 0 := by
  have hstill : Triple (fileRead (4 * x) buf count offset) s _ (fun _ _ => False) := fileRead_still hgt hm
  obtain ⟨r, t, hexec, rfl, rfl⟩ := hstill.returns
  constructor
  · intro hok
    obtain ⟨-, hk, -⟩ := hok _ _ hexec
    by_contra hpos
    obtain ⟨l, hl, htiles⟩ := hk (readResult (s.words (x + 32)) offset count).toNat (by rw [Int.toNat_of_nonneg (by omega)])
    rw [List.self_eq_append_right] at hl
    subst hl
    have hzero : buf = buf + (readResult (s.words (x + 32)) offset count).toNat := htiles
    omega
  · intro hle r t hexec'
    rw [hexec] at hexec'
    obtain ⟨rfl, rfl⟩ := Prod.mk.inj hexec'
    refine ⟨.refl rfl, fun k hk => ?_, size_nonneg hsize⟩
    have hval : readResult (s.words (x + 32)) offset count = k := Except.ok.inj hk
    obtain rfl : k = 0 := by omega
    exact .refl rfl

theorem First.unique (h : First V w x b) (h' : First V w x c) : b = c := by
  unfold First at h h'
  split at h
  · rename_i hne
    rw [if_pos hne] at h'
    exact h.trans h'.symm
  · rename_i h0
    rw [if_neg h0] at h'
    obtain ⟨-, hf, hlow⟩ := h
    obtain ⟨-, hf', hlow'⟩ := h'
    rcases Nat.lt_trichotomy b c with hlt | heq | hlt
    · exact absurd hf (by simp [hlow' b hlt])
    · exact heq
    · exact absurd hf' (by simp [hlow c hlt])

theorem fileGetBlock_first (h : DiskOk V s.words) (hx : V.file x) (h0 : 0 < V.cover x) :
    Triple (fileGetBlock (4 * x) 0) s
      (fun r t => ∃ b, r = .ok (4 * blockIx b.toNat) ∧ First V s.words x b.toNat ∧ Gets V x 0 b s.words t.words)
      (fun _ t => (∀ b, ¬ First V s.words x b) ∧ Spoiled x s.words t.words) := by
  have hr : s.words.Ready x 0 := .inl (by decide)
  refine (fileGetBlock_ok h rfl hx (n := 0) h0 (.inl hr)).mono ?_ ?_
  · rintro _ t ⟨b, rfl, hg⟩
    refine ⟨b, rfl, ?_, hg⟩
    unfold First
    split
    · rename_i hne
      exact congrArg BitVec.toNat (hg.self.symm.trans (hg.grows.ptr x 0 hx (by decide) hne))
    · rename_i hz
      exact ⟨hg.lt, hg.fresh (not_not.1 hz), hg.lowest hr (not_not.1 hz)⟩
  · rintro _ t ⟨⟨-, hshort⟩, hspoil⟩
    refine ⟨fun b hb => ?_, hspoil⟩
    unfold Words.need at hshort
    rw [if_pos (show s.words.Ready x (0 : Word).toNat from hr)] at hshort
    unfold First at hb
    split at hb
    · rename_i hne
      rw [if_neg (show ¬ s.words.ptr x (0 : Word).toNat = 0 from hne)] at hshort
      omega
    · have hpos : 0 < s.words.frees V.N :=
        Finset.card_pos.2 ⟨b, Finset.mem_filter.2 ⟨Finset.mem_range.2 hb.1, hb.2.1⟩⟩
      split at hshort <;> omega

/-- From less than a block before the file the loop has one round. -/
theorem copyBlocks_before {pos stop : Word} {Q : Fs → Prop} {E : Panic → Fs → Prop} (hnear : behind pos < blksize)
    (hlt : pos < stop) (hget : Triple (fileGetBlock f 0) s (fun r t => ∃ a, r = .ok a ∧ blksize ≤ a ∧ a < 2 ^ 32 ∧
      Q (t.copy false (a - behind pos) buf (stop.toNat - pos.toNat))) E) :
    Triple (copyBlocks false f stop (k + 2) buf pos) s (fun _ v => Q v) E := by
  have hbound := pos.isLt
  unfold behind blksize at *
  have hzero : pos.sdiv 4096#32 = 0 := by
    refine BitVec.eq_of_toNat_eq ((toNat_sdiv_of_ge (by omega)).trans ?_)
    rw [Nat.div_eq_of_lt hnear]
    rfl
  have hall := toNat_roundLen_neg hlt (by omega)
  have hdone : pos + roundLen pos stop = stop := by
    have hlt' := BitVec.lt_def.1 hlt
    refine BitVec.eq_of_toNat_eq ((toNat_add_roundLen hlt (by omega)).trans ?_)
    omega
  rw [copyBlocks, hzero]
  refine .ite (fun _ => .bind hget ?_) fun hge => absurd hlt hge
  rintro _ t ⟨a, rfl, hlow, hhigh, hq⟩
  have hdata : (BitVec.ofNat 32 a + pos.srem 4096#32).toNat = a - (2 ^ 32 - pos.toNat) := by
    rw [BitVec.toNat_add, BitVec.toNat_ofNat, toNat_srem_of_ge (by omega), Nat.mod_eq_of_lt hnear]
    omega
  change Triple (do
    memmove buf (BitVec.ofNat 32 a + pos.srem 4096#32).toNat (roundLen pos stop).toNat
    copyBlocks false f stop (k + 1) (buf + (roundLen pos stop).toNat) (pos + roundLen pos stop)) t _ _
  rw [hdata, hall, hdone]
  refine .bind memmove_in ?_
  rintro _ _ rfl
  refine (copyBlocks_still (moved_of_ge (BitVec.lt_irrefl stop))).imp ?_
  rintro _ _ ⟨rfl, -⟩
  exact hq

/-- `len` bytes have been copied from the block before block 0. -/
structure Peeked (V : Volume) (x buf : Nat) (offset : Word) (len : Nat) (s : Fs) (b : Nat) (v : Fs) : Prop where
  first : First V s.words x b
  pos : 0 < b
  moves : v.moves = s.moves ++ [⟨buf, 4 * blockIx b - behind offset, len⟩]
  size : v.words (x + 32) = s.words (x + 32)
  fresh : ∀ c, s.words.free c = true → (∃ n, Holds V v.words (.block x n) c) → c = b

theorem Gets.peeked {b : Word} (hg : Gets V x 0 b s.words t.words) (h : DiskOk V s.words) (hx : V.file x)
    (hf : First V s.words x b.toNat) (hm : t.moves = s.moves)
    (hbuf : ∀ a, buf ≤ a → a < buf + len → ¬ OnDisk V.N (a / 4)) :
    Peeked V x buf offset len s b.toNat (t.copy false (4 * blockIx b.toNat - behind offset) buf len) := by
  have hoff : ∀ i, OnDisk V.N i → (t.copy false (4 * blockIx b.toNat - behind offset) buf len).words i = t.words i := by
    intro i hi
    refine Mem.words_congr fun a hl hu => if_neg fun hin => ?_
    refine hbuf a (by omega) (by omega) ?_
    rwa [show a / 4 = i by omega]
  have hsame := hg.ok.same_off hoff
  refine ⟨hf, ?_, ?_, ?_, ?_⟩
  · exact Nat.pos_of_ne_zero fun h0 => hg.nonzero (BitVec.eq_of_toNat_eq h0)
  · rw [← hm]
    rfl
  · rw [hoff _ (Volume.field_onDisk hx (by omega))]
    exact hg.within.attr (fun c hc => hc.2 ▸ hg.ok.tables x hx hc.1) hx hx (by omega)
  · rintro c hfree ⟨n, -, hn, hne, rfl⟩
    have hn' := Nat.lt_of_lt_of_le hn V.cover_le
    rw [hsame.ptr x n hx hn'] at hne hfree ⊢
    by_cases h0 : n = 0
    · rw [h0, hg.self]
    · rw [hg.other n hn' h0] at hne hfree
      exact absurd hfree (h.not_free (r := .block x n) ⟨hx, hn, hne, rfl⟩)

theorem fileRead_before (h : DiskOk V s.words) (hx : V.file x) (h0 : 0 < V.cover x)
    (hgt : ¬ (s.words (x + 32)).toInt ≤ offset.toInt) (hnear : behind offset < blksize)
    (hlen : (minWord count (s.words (x + 32) - offset)).toNat = len) (hpos : 0 < len) (hlt : len < behind offset)
    (hbuf : ∀ a, buf ≤ a → a < buf + len → ¬ OnDisk V.N (a / 4)) :
    Triple (fileRead (4 * x) buf count offset) s
      (fun _ v => ∃ b, Peeked V x buf offset len s b v)
      (fun _ v => (∀ b, ¬ First V s.words x b) ∧ v.moves = s.moves ∧ v.words (x + 32) = s.words (x + 32)) := by
  have hstop : (offset + minWord count (s.words (x + 32) - offset)).toNat = offset.toNat + len := by
    unfold behind at hlt
    rw [BitVec.toNat_add, hlen, Nat.mod_eq_of_lt (by omega)]
  unfold fileRead
  rw [fSize_eq]
  refine .bind (load_ok rfl _) ?_
  rintro _ _ ⟨rfl, rfl⟩
  refine .ite (fun hle => absurd hle hgt) fun _ => ?_
  have hloop : Triple (copyBlocks false (4 * x) (offset + minWord count (s.words (x + 32) - offset))
      ((minWord count (s.words (x + 32) - offset)).toNat + 1) buf offset) s
      (fun _ v => ∃ b, Peeked V x buf offset len s b v)
      (fun _ v => (∀ b, ¬ First V s.words x b) ∧ v.moves = s.moves ∧ v.words (x + 32) = s.words (x + 32)) := by
    rw [hlen, show len + 1 = len - 1 + 2 by omega]
    refine copyBlocks_before hnear (BitVec.lt_def.2 (by omega))
      (((fileGetBlock_first h hx h0).and (fileGetBlock_result _ _ s)).mono ?_ ?_)
    · rintro _ t ⟨⟨b, rfl, hf, hg⟩, hm, -⟩
      have hend := block_end V hg.lt
      rw [hstop, Nat.add_sub_cancel_left]
      refine ⟨_, rfl, ?_, ?_, _, hg.peeked h hx hf hm hbuf⟩
      · unfold blockIx blksize
        omega
      · unfold blksize at hend
        omega
    · rintro _ v ⟨⟨hno, hspoil⟩, hm⟩
      exact ⟨hno, hm, hspoil.size⟩
  refine .bind hloop fun r v hq => ?_
  cases r with
  | error e => exact .pure hq
  | ok _ => exact .pure hq

theorem Peeked.inside_iff (hp : Peeked V x buf offset len s b t) (hpos : 0 < len) (hnear : behind offset < blksize)
    (hlt : len < behind offset) : Inside false V x s t ↔ Owns V s.words x (b - 1) := by
  have hb := hp.pos
  unfold blksize at hnear
  have hin : ∀ a, 4 * blockIx b - behind offset ≤ a → a < 4 * blockIx b - behind offset + len → InBlock (b - 1) (a / 4) := by
    intro a hl hu
    unfold InBlock blockIx at *
    omega
  constructor
  · rintro ⟨l, hl, hall⟩
    obtain rfl := List.append_cancel_left (hp.moves.symm.trans hl)
    obtain ⟨c, hc, hbel⟩ := hall _ (List.mem_singleton_self _) _ (Nat.le_refl _) (Nat.lt_add_of_pos_right hpos)
    rw [hc.unique (hin _ (Nat.le_refl _) (Nat.lt_add_of_pos_right hpos))] at hbel
    rcases hbel with hown | ⟨-, hf, hheld⟩
    · exact hown
    · have heq := hp.fresh _ hf hheld
      omega
  · intro hown
    refine ⟨_, hp.moves, fun m hm a hl hu => ⟨b - 1, ?_, .inl hown⟩⟩
    obtain rfl := List.mem_singleton.1 hm
    exact hin a hl hu

theorem readOk_near_iff (h : DiskOk V s.words) (hx : V.file x) (h0 : 0 < V.cover x)
    (hsize : (s.words (x + 32)).toNat ≤ maxfilesize) (hgt : ¬ (s.words (x + 32)).toInt ≤ offset.toInt)
    (hnear : behind offset < blksize) (hlen : (minWord count (s.words (x + 32) - offset)).toNat = len) (hpos : 0 < len)
    (hlt : len < behind offset) (hspan : readSpan (s.words (x + 32)) offset count = len)
    (hresult : readResult (s.words (x + 32)) offset count = len)
    (hbuf : ∀ a, buf ≤ a → a < buf + len → ¬ OnDisk V.N (a / 4)) :
    ReadOk V s x buf count offset ↔ ∀ b, First V s.words x b → Owns V s.words x (b - 1) := by
  have hread := (fileRead_before h hx h0 hgt hnear hlen hpos hlt hbuf).and (fileRead_moves (4 * x) buf count offset s)
  cases hexec : exec (fileRead (4 * x) buf count offset) s with
  | mk r t =>
    cases r with
    | ok r =>
      obtain ⟨⟨b, hp⟩, hc, hr⟩ := hread.ok hexec
      constructor
      · intro hok c hc
        rw [hc.unique hp.first]
        exact (hp.inside_iff hpos hnear hlt).1 (hok _ _ hexec).1
      · intro hsafe r' t' hexec'
        obtain ⟨rfl, rfl⟩ := Prod.mk.inj (hexec.symm.trans hexec')
        refine ⟨(hp.inside_iff hpos hnear hlt).2 (hsafe b hp.first), fun k hk => ?_, hp.size ▸ size_nonneg hsize⟩
        have hval : (len : Int) = k := (hr.trans hresult).symm.trans (Except.ok.inj hk)
        rw [← Int.ofNat.inj hval, ← hspan]
        exact hc
    | error e =>
      obtain ⟨⟨hno, hm, hsame⟩, -⟩ := hread.error hexec
      refine iff_of_true (fun r' t' hexec' => ?_) fun b hb => absurd hb (hno b)
      obtain ⟨rfl, rfl⟩ := Prod.mk.inj (hexec.symm.trans hexec')
      refine ⟨.refl hm, fun k hk => ?_, hsame ▸ size_nonneg hsize⟩
      cases hk

theorem toNat_span (count : Word) {size : Word} (hsize : size.toNat ≤ maxfilesize) (hneg : 2 ^ 31 ≤ offset.toNat) :
    (minWord count (size - offset)).toNat = min count.toNat (size.toNat + behind offset) := by
  have hoff := offset.isLt
  unfold maxfilesize ndirect nindirect blksize at hsize
  rw [toNat_minWord, BitVec.toNat_sub, behind]
  congr 1
  omega

theorem readOk_before_iff (h : DiskOk V s.words) (hx : V.file x) (h0 : 0 < V.cover x)
    (hsize : (s.words (x + 32)).toNat ≤ maxfilesize) (hneg : 2 ^ 31 ≤ offset.toNat)
    (hbuf : ∀ a, buf ≤ a → a < buf + readSpan (s.words (x + 32)) offset count → ¬ OnDisk V.N (a / 4)) :
    ReadOk V s x buf count offset ↔ ReadSafe V s.words x count offset := by
  have hoff := offset.isLt
  have hcap : maxfilesize < 2 ^ 31 := by decide
  have hnonneg := size_nonneg hsize
  have hgt : ¬ (s.words (x + 32)).toInt ≤ offset.toInt := by
    rw [toInt_of_ge hneg]
    omega
  have hspan : readSpan (s.words (x + 32)) offset count = _ := if_neg hgt
  have hresult : readResult (s.words (x + 32)) offset count = _ := if_neg hgt
  have hlen := toNat_span count hsize hneg
  unfold ReadSafe
  rw [or_iff_right (by omega), ← hlen]
  generalize hword : minWord count (s.words (x + 32) - offset) = word at hspan hresult hlen ⊢
  have hcount : count = 0 ↔ word.toNat = 0 := by
    rw [hlen]
    unfold behind
    rw [← BitVec.toNat_inj, show (0 : Word).toNat = 0 from rfl]
    omega
  have hstop : (offset + word).toNat = (offset.toNat + word.toNat) % 2 ^ 32 := BitVec.toNat_add ..
  split
  · -- The end has wrapped around.
    rename_i hwrap
    unfold behind at hwrap
    have hge : ¬ offset < offset + word := by
      rw [BitVec.lt_def, hstop]
      have hword := word.isLt
      omega
    rw [readOk_still_iff hgt (hspan.trans (moved_of_ge hge)) hsize, hresult, if_pos (reaches_of_ge hge)]
    by_cases hbig : 2 ^ 31 ≤ word.toNat
    · rw [toInt_of_ge hbig]
      have hword := word.isLt
      omega
    · rw [toInt_of_lt (by omega)]
      omega
  · rename_i hnowrap
    unfold behind at hnowrap
    have hstop' : (offset + word).toNat = offset.toNat + word.toNat := by omega
    rw [hcount]
    by_cases hzero : word.toNat = 0
    · have hge : ¬ offset < offset + word := by
        bv_omega
      rw [readOk_still_iff hgt (hspan.trans (moved_of_ge hge)) hsize, hresult, if_pos (reaches_of_ge hge),
        toInt_of_lt (by omega)]
      exact iff_of_true (by omega) (.inl hzero)
    · have hlt : offset < offset + word := BitVec.lt_def.2 (by omega)
      rw [or_iff_right hzero]
      by_cases hfar : blksize ≤ behind offset
      · unfold behind blksize at hfar
        have hmoved : moved offset (offset + word) = 0 := by
          rw [moved, if_pos hlt, if_neg (by omega), if_neg (by omega)]
        have hno : ¬ Reaches offset (offset + word) := fun hr => by
          have hnear := hr hlt
          rw [if_neg (by omega)] at hnear
          omega
        rw [readOk_still_iff hgt (hspan.trans hmoved) hsize, hresult, if_neg hno]
        exact iff_of_true (by decide) (.inl hfar)
      · rw [or_iff_right hfar]
        have hnear := Nat.lt_of_not_le hfar
        have hmoved : moved offset (offset + word) = word.toNat := by
          unfold behind blksize at hnear
          rw [moved, if_pos hlt, if_neg (by omega), if_pos (by omega)]
          omega
        rw [hspan, hmoved] at hbuf
        have hreach : Reaches offset (offset + word) := fun _ => by
          unfold behind blksize at hnear
          rw [if_neg (by omega)]
          omega
        rw [if_pos hreach, toInt_of_lt (by unfold behind blksize at hnear; omega)] at hresult
        exact readOk_near_iff h hx h0 hsize hgt hnear (hword ▸ rfl) (Nat.pos_of_ne_zero hzero)
          (Nat.lt_of_not_le hnowrap) (hspan.trans hmoved) hresult hbuf

/-! ## Sizes -/

theorem Inside.of_grown {size : Word} (hin : Inside d V x u t) (h : DiskOk V s.words) (hx : V.file x)
    (hu : u.words = s.words.grown x size) (hm : u.moves = s.moves) : Inside d V x s t := by
  obtain ⟨l, hl, hall⟩ := hin
  have hsame := h.same_grown size hx
  rw [← hu] at hsame
  refine ⟨l, by rw [hl, hm], fun m hml a hla hua => ?_⟩
  obtain ⟨b, hb, hbel⟩ := hall m hml a hla hua
  refine ⟨b, hb, ?_⟩
  rcases hbel with (hheld | ⟨n, hheld⟩) | ⟨hlt, hf, n, hheld⟩
  · exact .inl (.inl (hsame.holds hheld))
  · exact .inl (.inr ⟨n, hsame.holds hheld⟩)
  · rw [hu, Words.free_grown hx (inBitmap_bitmapIx hlt)] at hf
    exact .inr ⟨hlt, hf, n, hheld⟩

section
variable (h : DiskOk V s.words) (hx : V.file x) (hd : s.words.Data V x) (hcov : V.cover x = ndirect + nindirect) (hsize : (s.words (x + 32)).toNat ≤ maxfilesize)
include h hx hd hcov hsize

theorem fileWrite_inside (hstop : (offset + count).toNat < 2 ^ 31)
    (hz : offset.toNat < 2 ^ 31 → s.words.Slots x offset.toNat (offset.toNat + moved offset (offset + count)) ∨ s.words.Clean V.N)
    (hbuf : ∀ a, buf ≤ a → a < buf + moved offset (offset + count) → ¬ OnDisk V.N (a / 4)) :
    Triple (fileWrite (4 * x) buf count offset) s
      (fun _ t => Inside true V x s t ∧ 0 ≤ (t.words (x + 32)).toInt)
      (fun _ t => Inside true V x s t ∧ 0 ≤ (t.words (x + 32)).toInt) := by
  have hcap : maxfilesize < 2 ^ 31 := by decide
  have hle := toNat_add_le offset count
  have hsame := h.same_grown (offset + count) hx
  have hgrows := h.grows_grown (offset + count) hx
  unfold fileWrite
  rw [fSize_eq]
  refine .bind (load_ok rfl _) ?_
  rintro _ _ ⟨rfl, rfl⟩
  refine have hrest : ∀ u : Fs, u.words = s.words.grown x (offset + count) → u.moves = s.moves → Triple _ u _ _ := ?_
    .ite (fun hlt => .bind (((fileSetSize_grow hx (E := fun _ _ => False) ?_).and
      (Keeps.triple (keeps_fileSetSize offMem_moves _ _) s)).imp_error fun _ _ he => he.1.elim)
        fun _ u hu => hrest u (hu.1.trans (if_pos hlt).symm) hu.2) fun hge => hrest s (if_neg hge).symm rfl
  · intro u hu hm
    have hgrown : 0 ≤ (u.words (x + 32)).toInt := by
      have hmax := s.words.grown_size x (offset + count)
      rw [hu, toInt_of_lt (by omega)]
      omega
    by_cases hoff : offset.toNat < 2 ^ 31
    · have hdata : u.words.Data V x := by
        intro k hk
        rw [hu, hsame.ptr x k hx (by omega)]
        exact hd k hk
      have hz' : u.words.Slots x offset.toNat (offset.toNat + moved offset (offset + count)) ∨ u.words.Clean V.N := by
        rw [hu]
        exact (hz hoff).imp (fun hslots k hl hu => hgrows.ready hx (hslots k hl hu)) hgrows.cleaned
      refine .bind ((copyBlocks_inside (hu.symm ▸ h.grown hx) hx hdata hoff hcov hz' hbuf (by omega)).imp_error fun _ t he => ⟨he.1.of_grown h hx hu hm, he.2 ▸ hgrown⟩) ?_
      rintro r t ⟨hin, hword⟩
      have hdone := And.intro (hin.of_grown h hx hu hm) (hword ▸ hgrown)
      cases r with
      | error e => exact .pure hdone
      | ok _ => exact .pure hdone
    · refine .bind (copyBlocks_still (moved_of_ge ?_)) ?_
      · bv_omega
      · rintro r _ ⟨rfl, -⟩
        cases r with
        | error e => exact .pure ⟨.refl hm, hgrown⟩
        | ok _ => exact .pure ⟨.refl hm, hgrown⟩
  · rw [toInt_of_lt (by omega), toInt_of_lt (by omega)]
    bv_omega

theorem writeOk_iff
    (hz : offset.toNat < 2 ^ 31 → s.words.Slots x offset.toNat (offset.toNat + moved offset (offset + count)) ∨ s.words.Clean V.N)
    (hbuf : ∀ a, buf ≤ a → a < buf + moved offset (offset + count) → ¬ OnDisk V.N (a / 4)) :
    WriteOk V s x buf count offset ↔ (offset + count).toNat < 2 ^ 31 := by
  have hcap : maxfilesize < 2 ^ 31 := by decide
  have hset : Triple (fileSetSize (4 * x) (offset + count)) s (fun r t => r = 0 ∧ Resized V x (offset + count) s.words t.words)
      (fun _ _ => False) := fileSetSize_ok h rfl hx hd (.inr hcov)
  obtain ⟨r, u, hexec, -, v, hv, -⟩ := hset.returns
  have hword : u.words (x + 32) = offset + count := by rw [hv, Function.update_self]
  constructor
  · rintro ⟨hok, -⟩
    by_contra hbig
    have hnonneg := hok (BitVec.lt_def.2 (by omega)) _ _ hexec
    rw [hword, toInt_of_ge (by omega)] at hnonneg
    have hlt := (offset + count).isLt
    omega
  · intro hsmall
    refine ⟨fun _ r' u' hexec' => ?_, fun r' t' hexec' => ?_⟩
    · obtain ⟨rfl, rfl⟩ := Prod.mk.inj (hexec.symm.trans hexec')
      rw [hword, toInt_of_lt hsmall]
      omega
    · have hwrite := fileWrite_inside h hx hd hcov hsize hsmall hz hbuf
      cases r' with
      | ok r => exact hwrite.ok hexec'
      | error e => exact hwrite.error hexec'

end

def reach (size offset count : Word) : Nat := max (readSpan size offset count) (moved offset (offset + count))

theorem slots_mono {lo : Nat} (h : w.Slots x lo (lo + m)) (hle : n ≤ m) : w.Slots x lo (lo + n) := by
  refine fun k hl hu => h k hl (Nat.lt_of_lt_of_le hu ?_)
  unfold lastSlot blocksFor blksize
  split <;> split <;> omega

end

theorem low_off_disk (V : Volume) (ha : a < 2 ^ 20) : ¬ OnDisk V.N (a / 4) := by
  intro hon
  unfold OnDisk blockIx at hon
  omega

theorem twoBlocks_first : First rootVolume twoBlocks.words rootIx 3 := by
  unfold First
  rw [twoBlocks_slot.1]
  decide

end Jos.Fs
