import Jos.Fs.Frames

/-!
# Read and write requests stay in the request page

`file_read` and `file_write` copy block by block between the disk and the
request page, which is one page long and followed by the disk itself. The
number of bytes is the client's, cut at the file size for reads and at the
largest file for both, but nowhere at the page: what a request copies is
`moved`, whatever the disk holds (`copyBlocks_moves`).
-/

namespace Jos.Fs

open Lib

/-! ## Signed division of words -/

section
variable {x : Word}

theorem msb_of_lt (h : x.toNat < 2 ^ 31) : x.msb = false := by
  rw [BitVec.msb_eq_decide]
  exact decide_eq_false (by omega)

theorem msb_of_ge (h : 2 ^ 31 ≤ x.toNat) : x.msb = true := by
  rw [BitVec.msb_eq_decide]
  exact decide_eq_true (by omega)

theorem toNat_sdiv_of_lt (h : x.toNat < 2 ^ 31) : (x.sdiv 4096#32).toNat = x.toNat / 4096 := by
  rw [BitVec.sdiv_eq, msb_of_lt h, show (4096#32).msb = false from rfl]
  exact BitVec.toNat_udiv ..

theorem toNat_srem_of_lt (h : x.toNat < 2 ^ 31) : (x.srem 4096#32).toNat = x.toNat % 4096 := by
  rw [BitVec.srem_eq, msb_of_lt h, show (4096#32).msb = false from rfl]
  exact BitVec.toNat_umod ..

theorem toNat_neg_of_ge (h : 2 ^ 31 ≤ x.toNat) : (-x).toNat = 2 ^ 32 - x.toNat := by
  bv_omega

-- Division of a negative word goes towards zero.

theorem toNat_sdiv_of_ge (h : 2 ^ 31 ≤ x.toNat) :
    (x.sdiv 4096#32).toNat = (2 ^ 32 - (2 ^ 32 - x.toNat) / 4096) % 2 ^ 32 := by
  rw [BitVec.sdiv_eq, msb_of_ge h, show (4096#32).msb = false from rfl]
  change (-(-x / 4096#32)).toNat = _
  rw [BitVec.toNat_neg, BitVec.toNat_udiv, toNat_neg_of_ge h]
  rfl

theorem toNat_srem_of_ge (h : 2 ^ 31 ≤ x.toNat) :
    (x.srem 4096#32).toNat = (2 ^ 32 - (2 ^ 32 - x.toNat) % 4096) % 2 ^ 32 := by
  rw [BitVec.srem_eq, msb_of_ge h, show (4096#32).msb = false from rfl]
  rw [BitVec.toNat_neg, BitVec.toNat_umod, toNat_neg_of_ge h]
  rfl

theorem toInt_of_lt (h : x.toNat < 2 ^ 31) : x.toInt = x.toNat := by
  rw [BitVec.toInt_eq_toNat_cond, if_pos (by omega)]

theorem toInt_of_ge (h : 2 ^ 31 ≤ x.toNat) : x.toInt = x.toNat - 2 ^ 32 := by
  rw [BitVec.toInt_eq_toNat_cond, if_neg (by omega)]
  rfl

end

/-! ## One round of the loop -/

def roundLen (pos stop : Word) : Word := minWord (4096#32 - pos.srem 4096#32) (stop - pos)

theorem toNat_minWord (a b : Word) : (minWord a b).toNat = min a.toNat b.toNat := by
  unfold minWord
  split
  · rename_i h
    exact (Nat.min_eq_left (BitVec.le_def.1 h)).symm
  · rename_i h
    rw [BitVec.le_def] at h
    exact (Nat.min_eq_right (by omega)).symm

section
variable {pos stop : Word}

theorem toNat_sub_of_lt (h : pos < stop) : (stop - pos).toNat = stop.toNat - pos.toNat := by
  bv_omega

theorem toNat_roundLen (h : pos < stop) (hp : pos.toNat < 2 ^ 31) :
    (roundLen pos stop).toNat = min (4096 - pos.toNat % 4096) (stop.toNat - pos.toNat) := by
  have hrem : (4096#32 - pos.srem 4096#32).toNat = 4096 - pos.toNat % 4096 := by
    rw [BitVec.toNat_sub, toNat_srem_of_lt hp, BitVec.toNat_ofNat]
    omega
  rw [roundLen, toNat_minWord, hrem, toNat_sub_of_lt h]

/-- Less than a block before the start of the file: one round copies everything. -/
theorem toNat_roundLen_neg (h : pos < stop) (hp : 2 ^ 32 - 4096 < pos.toNat) :
    (roundLen pos stop).toNat = stop.toNat - pos.toNat := by
  have hrem : (4096#32 - pos.srem 4096#32).toNat = 2 ^ 32 - pos.toNat + 4096 := by
    rw [BitVec.toNat_sub, toNat_srem_of_ge (by omega), BitVec.toNat_ofNat]
    omega
  rw [roundLen, toNat_minWord, hrem, toNat_sub_of_lt h]
  omega

theorem toNat_add_roundLen (h : pos < stop) (hle : (roundLen pos stop).toNat ≤ stop.toNat - pos.toNat) :
    (pos + roundLen pos stop).toNat = pos.toNat + (roundLen pos stop).toNat := by
  bv_omega

end

/-- What the loop copies from `pos` on when it is not stopped by a panic. -/
def moved (pos stop : Word) : Nat :=
  if pos < stop then
    if pos.toNat < 2 ^ 31 then min stop.toNat maxfilesize - pos.toNat
    else if 2 ^ 32 - 4096 < pos.toNat then stop.toNat - pos.toNat
    else 0
  else 0

/-- The loop reaches `stop` and not `-E_INVAL`. -/
def Reaches (pos stop : Word) : Prop :=
  pos < stop → if pos.toNat < 2 ^ 31 then stop.toNat ≤ maxfilesize else 2 ^ 32 - 4096 < pos.toNat

instance : Decidable (Reaches pos stop) :=
  inferInstanceAs (Decidable (_ → _))

def loopResult (pos stop : Word) : Except Int Unit := if Reaches pos stop then .ok () else .error (-eInval)

section
variable {pos stop : Word}

theorem moved_of_ge (h : ¬ pos < stop) : moved pos stop = 0 := if_neg h

theorem reaches_of_ge (h : ¬ pos < stop) : Reaches pos stop := fun hlt => absurd hlt h

theorem sdiv_cases (pos : Word) :
    (pos.toNat < 2 ^ 31 ∧ (pos.sdiv 4096#32).toNat = pos.toNat / 4096) ∨
      (2 ^ 31 ≤ pos.toNat ∧ pos.toNat ≤ 2 ^ 32 - 4096 ∧ ndirect + nindirect ≤ (pos.sdiv 4096#32).toNat) ∨
      (2 ^ 32 - 4096 < pos.toNat ∧ (pos.sdiv 4096#32).toNat = 0) := by
  by_cases hp : pos.toNat < 2 ^ 31
  · exact .inl ⟨hp, toNat_sdiv_of_lt hp⟩
  · have hdiv := toNat_sdiv_of_ge (x := pos) (by omega)
    unfold ndirect nindirect
    by_cases hle : pos.toNat ≤ 2 ^ 32 - 4096
    · exact .inr (.inl ⟨by omega, hle, by omega⟩)
    · exact .inr (.inr ⟨by omega, by omega⟩)

theorem moved_next (h : pos < stop) (hn : (pos.sdiv 4096#32).toNat < ndirect + nindirect) :
    0 < (roundLen pos stop).toNat ∧
      (pos + roundLen pos stop).toNat = pos.toNat + (roundLen pos stop).toNat ∧
      moved pos stop = (roundLen pos stop).toNat + moved (pos + roundLen pos stop) stop ∧
      (Reaches (pos + roundLen pos stop) stop ↔ Reaches pos stop) := by
  have hlt := BitVec.lt_def.1 h
  rcases sdiv_cases pos with ⟨hp, hdiv⟩ | ⟨-, -, hge⟩ | ⟨hp, -⟩
  · unfold ndirect nindirect at hn
    have hlen := toNat_roundLen h hp
    have hadd := toNat_add_roundLen h (by omega)
    refine ⟨by omega, hadd, ?_⟩
    unfold moved Reaches maxfilesize ndirect nindirect blksize
    simp only [BitVec.lt_def, hadd]
    constructor
    · repeat' split
      all_goals omega
    · rw [if_pos (by omega), if_pos (by omega)]
      omega
  · omega
  · have hlen := toNat_roundLen_neg h hp
    have hadd := toNat_add_roundLen h (by omega)
    have hstop : pos + roundLen pos stop = stop := BitVec.eq_of_toNat_eq (by omega)
    refine ⟨by omega, hadd, ?_⟩
    rw [hstop, moved_of_ge (BitVec.lt_irrefl stop), hlen, moved, if_pos h, if_neg (by omega), if_pos hp]
    refine ⟨rfl, fun _ _ => ?_, fun _ => reaches_of_ge (BitVec.lt_irrefl stop)⟩
    rw [if_neg (by omega)]
    exact hp

theorem moved_end (h : pos < stop) (hn : ndirect + nindirect ≤ (pos.sdiv 4096#32).toNat) :
    moved pos stop = 0 ∧ ¬ Reaches pos stop := by
  have hlt := BitVec.lt_def.1 h
  unfold moved Reaches
  rw [if_pos h]
  rcases sdiv_cases pos with ⟨hp, hdiv⟩ | ⟨hp, hle, -⟩ | ⟨hp, h0⟩
  · unfold maxfilesize ndirect nindirect blksize at *
    rw [if_pos hp, if_pos hp]
    exact ⟨by omega, fun hr => absurd (hr h) (by omega)⟩
  · rw [if_neg (by omega), if_neg (by omega), if_neg (by omega)]
    exact ⟨rfl, fun hr => absurd (hr h) (by omega)⟩
  · unfold ndirect nindirect at hn
    omega

end

/-! ## Moves that tile the buffer -/

def Move.buffer (toDisk : Bool) (m : Move) : Nat := if toDisk then m.src else m.dst

def Tiles (toDisk : Bool) : Nat → List Move → Nat → Prop
  | lo, [], hi => lo = hi
  | lo, m :: l, hi => m.buffer toDisk = lo ∧ 0 < m.len ∧ Tiles toDisk (lo + m.len) l hi

namespace Tiles

variable {d : Bool} {lo hi : Nat} {l : List Move}

theorem le (h : Tiles d lo l hi) : lo ≤ hi := by
  induction l generalizing lo with
  | nil => exact Nat.le_of_eq h
  | cons m l ih => exact Nat.le_trans (Nat.le_add_right ..) (ih h.2.2)

theorem inside (h : Tiles d lo l hi) (hm : m ∈ l) : lo ≤ m.buffer d ∧ m.buffer d + m.len ≤ hi := by
  induction l generalizing lo with
  | nil => simp at hm
  | cons a l ih =>
    obtain ⟨hb, hpos, hrest⟩ := h
    rcases List.mem_cons.1 hm with rfl | hm
    · exact ⟨Nat.le_of_eq hb.symm, hb ▸ hrest.le⟩
    · have hin := ih hrest hm
      exact ⟨by omega, hin.2⟩

theorem exists_end (h : Tiles d lo l hi) (hlt : lo < hi) : ∃ m ∈ l, m.buffer d + m.len = hi := by
  induction l generalizing lo with
  | nil => exact absurd h (Nat.ne_of_lt hlt)
  | cons a l ih =>
    obtain ⟨hb, hpos, hrest⟩ := h
    by_cases hend : lo + a.len < hi
    · obtain ⟨m, hm, he⟩ := ih hrest hend
      exact ⟨m, List.mem_cons_of_mem _ hm, he⟩
    · have hle := hrest.le
      exact ⟨a, List.mem_cons_self .., by omega⟩

end Tiles

/-! ## What the loop copies -/

theorem memmove_ok {E : Panic → Fs → Prop} :
    Triple (memmove dst src len) s
      (fun _ t => t.moves = s.moves ++ [⟨dst, src, len⟩] ∧ t.mem = s.mem.move dst src len) E :=
  .modify ⟨rfl, rfl⟩

/-- What has been copied between `s` and `t` fills `lo` to `hi` of the buffer. -/
def Copies (toDisk : Bool) (s : Fs) (lo hi : Nat) (t : Fs) : Prop :=
  ∃ l, t.moves = s.moves ++ l ∧ Tiles toDisk lo l hi

theorem Copies.refl (h : t.moves = s.moves) : Copies d s lo lo t := ⟨[], by rw [h, List.append_nil], rfl⟩

theorem Copies.cons {m : Move} (hu : u.moves = s.moves ++ [m]) (hb : m.buffer d = lo) (hm : 0 < m.len)
    (h : Copies d u (lo + m.len) hi t) : Copies d s lo hi t := by
  obtain ⟨l, hl, ht⟩ := h
  exact ⟨m :: l, by rw [hl, hu, List.append_assoc]; rfl, hb, hm, ht⟩

theorem Copies.le (h : Copies d s lo hi t) : lo ≤ hi := by
  obtain ⟨l, -, ht⟩ := h
  exact ht.le

def CopiesUpTo (toDisk : Bool) (s : Fs) (lo hi : Nat) (t : Fs) : Prop := ∃ mid ≤ hi, Copies toDisk s lo mid t

/-- The loop fills `moved` bytes of the buffer, whatever the disk holds. -/
theorem copyBlocks_moves (hk : stop.toNat < pos.toNat + k) (hk0 : 0 < k) :
    Triple (copyBlocks d f stop k buf pos) s
      (fun r t => Copies d s buf (buf + moved pos stop) t ∧ r = loopResult pos stop)
      (fun _ t => CopiesUpTo d s buf (buf + moved pos stop) t) := by
  induction k generalizing s buf pos with
  | zero => omega
  | succ k ih =>
    refine .ite (fun hlt => ?_) fun hge => ?_
    · refine .bind ((fileGetBlock_result f _ s).imp_error fun _ t h =>
        ⟨buf, Nat.le_add_right .., .refl h⟩) ?_
      rintro r u ⟨hu, hr⟩
      split at hr
      · rename_i hn
        obtain ⟨hm, hno⟩ := moved_end hlt hn
        subst hr
        rw [hm]
        exact .pure ⟨.refl hu, (if_neg hno).symm⟩
      · rename_i hn
        obtain ⟨hpos, hadd, hm, hreach⟩ := moved_next hlt (Nat.lt_of_not_le hn)
        obtain ⟨a, rfl⟩ := hr
        have hlt' := BitVec.lt_def.1 hlt
        have hnext : ∀ (m : Move) (v : Fs), v.moves = s.moves ++ [m] → m.buffer d = buf →
            m.len = (roundLen pos stop).toNat →
            Triple (copyBlocks d f stop k (buf + (roundLen pos stop).toNat) (pos + roundLen pos stop)) v
              (fun r t => Copies d s buf (buf + moved pos stop) t ∧ r = loopResult pos stop)
              (fun _ t => CopiesUpTo d s buf (buf + moved pos stop) t) := by
          intro m v hv hb hl
          have hround : Triple (copyBlocks d f stop k (buf + (roundLen pos stop).toNat) (pos + roundLen pos stop)) v _ _ :=
            ih (by omega) (by omega)
          rw [Nat.add_assoc, ← hm] at hround
          refine hround.mono (fun r t hq => ⟨.cons hv hb (by omega) (hl ▸ hq.1), ?_⟩) fun _ t he => ?_
          · rw [hq.2, loopResult, loopResult, if_congr hreach rfl rfl]
          · obtain ⟨mid, hle, hc⟩ := he
            exact ⟨mid, hle, .cons hv hb (by omega) (hl ▸ hc)⟩
        refine .ite (fun hd => .bind memmove_ok fun _ v hv => ?_) fun hd => .bind memmove_ok fun _ v hv => ?_
        · rw [hu] at hv
          exact hnext _ v hv.1 (by rw [Move.buffer, if_pos hd]) (by rw [roundLen])
        · rw [hu] at hv
          exact hnext _ v hv.1 (by rw [Move.buffer, if_neg hd]) (by rw [roundLen])
    · rw [moved_of_ge hge]
      exact .pure ⟨.refl rfl, (if_pos (reaches_of_ge hge)).symm⟩

/-! ## `file_read` and `file_write` -/

def readSpan (size offset count : Word) : Nat :=
  if size.toInt ≤ offset.toInt then 0 else moved offset (offset + minWord count (size - offset))

def readResult (size offset count : Word) : Int :=
  if size.toInt ≤ offset.toInt then 0
  else if Reaches offset (offset + minWord count (size - offset)) then (minWord count (size - offset)).toInt
  else -eInval

theorem toNat_add_le (a b : Word) : (a + b).toNat ≤ a.toNat + b.toNat := by
  exact Nat.mod_le ..

theorem load_read32 (a : Nat) (s : Fs) {E : Panic → Fs → Prop} :
    Triple (load a) s (fun v t => s = t ∧ v = s.mem.read32 a) E :=
  .of_ok (t := s) rfl ⟨rfl, rfl⟩

theorem fileRead_moves (f buf : Nat) (count offset : Word) (s : Fs) :
    Triple (fileRead f buf count offset) s
      (fun r t => Copies false s buf (buf + readSpan (s.mem.read32 (fSize f)) offset count) t ∧
        r = readResult (s.mem.read32 (fSize f)) offset count)
      (fun _ t => CopiesUpTo false s buf (buf + readSpan (s.mem.read32 (fSize f)) offset count) t) := by
  refine .bind (load_read32 _ s) ?_
  rintro _ _ ⟨rfl, rfl⟩
  generalize s.mem.read32 (fSize f) = size
  unfold readSpan readResult
  refine .ite (fun hle => ?_) fun hgt => ?_
  · rw [if_pos hle, if_pos hle]
    exact .pure ⟨.refl rfl, rfl⟩
  · rw [if_neg hgt, if_neg hgt]
    have hle := toNat_add_le offset (minWord count (size - offset))
    refine .bind (copyBlocks_moves (by omega) (by omega)) ?_
    rintro _ t ⟨hc, rfl⟩
    unfold loopResult
    by_cases hr : Reaches offset (offset + minWord count (size - offset))
    · rw [if_pos hr, if_pos hr]
      exact .pure ⟨hc, rfl⟩
    · rw [if_neg hr, if_neg hr]
      exact .pure ⟨hc, rfl⟩

theorem fileWrite_moves (f buf : Nat) (count offset : Word) (s : Fs) :
    Triple (fileWrite f buf count offset) s
      (fun _ t => Copies true s buf (buf + moved offset (offset + count)) t)
      (fun _ t => CopiesUpTo true s buf (buf + moved offset (offset + count)) t) := by
  have hle := toNat_add_le offset count
  refine .bind (load_read32 _ s) ?_
  rintro size _ ⟨rfl, -⟩
  refine have hloop : ∀ u : Fs, u.moves = s.moves → Triple _ u _ _ := ?_
    .ite (fun _ => .bind ((Keeps.triple (keeps_fileSetSize offMem_moves f _) s).imp_error fun _ _ h =>
      ⟨buf, Nat.le_add_right .., .refl h⟩) fun _ u hu => hloop u hu) fun _ => hloop s rfl
  intro u hu
  have hsame : ∀ hi t, Copies true u buf hi t → Copies true s buf hi t := by
    rintro hi t ⟨l, hl, ht⟩
    exact ⟨l, by rw [hl, hu], ht⟩
  refine .bind ((copyBlocks_moves (by omega) (by omega)).imp_error fun _ t ⟨mid, hmid, hc⟩ =>
    ⟨mid, hmid, hsame _ _ hc⟩) ?_
  rintro r t ⟨hc, -⟩
  cases r with
  | error e => exact .pure (hsame _ _ hc)
  | ok _ => exact .pure (hsame _ _ hc)

/-! ## The request page -/

def Fs.requested (s : Fs) : OpenFile := s.opentab ((s.mem.read32 reqFileid).toNat % maxopen)

def Fs.Known (s : Fs) : Prop := 1 < s.requested.fdRef ∧ s.requested.fileid = s.mem.read32 reqFileid

/-- What `serve_read` stores through the request pointer is in the request page. -/
def StoresInPage (s t : Fs) : Prop :=
  ∀ m ∈ t.moves.drop s.moves.length, fsreq ≤ m.dst ∧ m.dst + m.len ≤ fsreq + pgsize

/-- What `serve_write` reads through the request pointer is in `req_buf`. -/
def LoadsInPage (s t : Fs) : Prop :=
  ∀ m ∈ t.moves.drop s.moves.length, reqBuf ≤ m.src ∧ m.src + m.len ≤ fsreq + pgsize

def ReadFits (s : Fs) : Prop :=
  s.Known →
    readSpan (s.mem.read32 (fSize s.requested.file)) s.requested.fdOffset (s.mem.read32 reqN) ≤ pgsize ∧
      readResult (s.mem.read32 (fSize s.requested.file)) s.requested.fdOffset (s.mem.read32 reqN) ≤ pgsize

def WriteFits (s : Fs) : Prop :=
  s.Known → moved s.requested.fdOffset (s.requested.fdOffset + s.mem.read32 reqN) ≤ pgsize - 8

theorem advance_result (i : Nat) (r : Int) (s : Fs) :
    Triple (advance i r) s (fun r' t => r' = r ∧ t.moves = s.moves) (fun _ _ => False) := by
  refine .ite (fun _ => .bind (Q := fun _ t => t.moves = s.moves) ?_ fun _ t ht => .pure ⟨rfl, ht⟩) fun _ => .pure ⟨rfl, rfl⟩
  exact .modify rfl

theorem Copies.congr (h : Copies d s lo hi t) (hu : u.moves = t.moves) : Copies d s lo hi u := by
  obtain ⟨l, hl, ht⟩ := h
  exact ⟨l, hu.trans hl, ht⟩

theorem openfileLookup_known (s : Fs) {E : Panic → Fs → Prop} :
    Triple (openfileLookup (s.mem.read32 reqFileid)) s
      (fun r t => s = t ∧ ((¬ s.Known ∧ r = .error (-eInval)) ∨
        (s.Known ∧ r = .ok ((s.mem.read32 reqFileid).toNat % maxopen)))) E := by
  refine .get_bind ?_
  refine .ite (fun hno => .pure ⟨rfl, .inl ⟨fun hk => ?_, rfl⟩⟩) fun hyes => .pure ⟨rfl, .inr ⟨?_, rfl⟩⟩
  · rcases hno with hno | hno
    · exact Nat.not_lt.2 hno hk.1
    · exact hno hk.2
  · rw [not_or, not_not] at hyes
    exact ⟨Nat.lt_of_not_le hyes.1, hyes.2⟩

theorem serveRead_moves (s : Fs) :
    Triple serveRead s
      (fun r t => (¬ s.Known ∧ r = -eInval ∧ t.moves = s.moves) ∨ (s.Known ∧
        Copies false s fsreq (fsreq + readSpan (s.mem.read32 (fSize s.requested.file)) s.requested.fdOffset
          (s.mem.read32 reqN)) t ∧
        r = readResult (s.mem.read32 (fSize s.requested.file)) s.requested.fdOffset (s.mem.read32 reqN)))
      (fun _ t => s.Known ∧ CopiesUpTo false s fsreq (fsreq + readSpan (s.mem.read32 (fSize s.requested.file))
        s.requested.fdOffset (s.mem.read32 reqN)) t) := by
  refine .bind (load_read32 _ s) ?_
  rintro _ _ ⟨rfl, rfl⟩
  refine .bind (openfileLookup_known s) ?_
  rintro _ _ ⟨rfl, ⟨hno, rfl⟩ | ⟨hk, rfl⟩⟩
  · exact .pure (.inl ⟨hno, rfl, rfl⟩)
  · refine .get_bind ?_
    refine .bind (load_read32 _ s) ?_
    rintro _ _ ⟨rfl, rfl⟩
    refine .bind ((fileRead_moves _ _ _ _ s).imp_error fun _ _ h => ⟨hk, h⟩) ?_
    rintro r t ⟨hc, hr⟩
    refine (advance_result _ r t).mono ?_ fun _ _ h => h.elim
    rintro _ u ⟨rfl, hu⟩
    exact .inr ⟨hk, hc.congr hu, hr⟩

theorem serveWrite_moves (s : Fs) :
    Triple serveWrite s
      (fun _ t => (¬ s.Known ∧ t.moves = s.moves) ∨ (s.Known ∧
        Copies true s reqBuf (reqBuf + moved s.requested.fdOffset (s.requested.fdOffset + s.mem.read32 reqN)) t))
      (fun _ t => s.Known ∧
        CopiesUpTo true s reqBuf (reqBuf + moved s.requested.fdOffset (s.requested.fdOffset + s.mem.read32 reqN)) t) := by
  refine .bind (load_read32 _ s) ?_
  rintro _ _ ⟨rfl, rfl⟩
  refine .bind (openfileLookup_known s) ?_
  rintro _ _ ⟨rfl, ⟨hno, rfl⟩ | ⟨hk, rfl⟩⟩
  · exact .pure (.inl ⟨hno, rfl⟩)
  · refine .get_bind ?_
    refine .bind (load_read32 _ s) ?_
    rintro _ _ ⟨rfl, rfl⟩
    refine .bind ((fileWrite_moves _ _ _ _ s).imp_error fun _ _ h => ⟨hk, h⟩) ?_
    intro r t hc
    refine (advance_result _ r t).mono ?_ fun _ _ h => h.elim
    rintro _ u ⟨-, hu⟩
    exact .inr ⟨hk, hc.congr hu⟩

/-! ## Which requests stay in the page -/

theorem Copies.storesInPage_iff (h : Copies false s fsreq (fsreq + n) t) : StoresInPage s t ↔ n ≤ pgsize := by
  obtain ⟨l, hl, ht⟩ := h
  unfold StoresInPage
  rw [hl, List.drop_left]
  constructor
  · intro hin
    by_contra hgt
    obtain ⟨m, hm, he⟩ := ht.exists_end (by omega)
    have hend : m.dst + m.len = fsreq + n := he
    have hle := (hin m hm).2
    omega
  · intro hle m hm
    have hin := ht.inside hm
    exact ⟨hin.1, Nat.le_trans hin.2 (by omega)⟩

theorem Copies.loadsInPage_iff (h : Copies true s reqBuf (reqBuf + n) t) : LoadsInPage s t ↔ n ≤ pgsize - 8 := by
  obtain ⟨l, hl, ht⟩ := h
  unfold LoadsInPage
  rw [hl, List.drop_left]
  unfold reqBuf pgsize at *
  constructor
  · intro hin
    by_contra hgt
    obtain ⟨m, hm, he⟩ := ht.exists_end (by omega)
    have hend : m.src + m.len = fsreq + 8 + n := he
    have hle := (hin m hm).2
    omega
  · intro hle m hm
    have hin := ht.inside hm
    exact ⟨hin.1, Nat.le_trans hin.2 (by omega)⟩

theorem readResult_le (size offset count : Word) : readResult size offset count ≤ count.toNat := by
  unfold readResult
  split
  · omega
  · split
    · have hle : (minWord count (size - offset)).toInt ≤ (minWord count (size - offset)).toNat := by
        rw [BitVec.toInt_eq_toNat_cond]
        split <;> omega
      rw [toNat_minWord] at hle
      omega
    · unfold eInval
      omega

theorem requests_stay_in_page (s : Fs) :
    (∀ r t, exec serveRead s = (.ok r, t) →
      (StoresInPage s t ∧ r ≤ min (s.mem.read32 reqN).toNat pgsize ↔ ReadFits s)) ∧
    (∀ e t, exec serveRead s = (.error e, t) → ReadFits s → StoresInPage s t) ∧
    (∀ r t, exec serveWrite s = (.ok r, t) → (LoadsInPage s t ↔ WriteFits s)) ∧
    ∀ e t, exec serveWrite s = (.error e, t) → WriteFits s → LoadsInPage s t := by
  refine ⟨fun r t hx => ?_, fun e t hx hfit => ?_, fun r t hx => ?_, fun e t hx hfit => ?_⟩
  · rcases (serveRead_moves s).ok hx with ⟨hno, rfl, hm⟩ | ⟨hk, hc, rfl⟩
    · refine ⟨fun _ hk => absurd hk hno, fun _ => ⟨?_, ?_⟩⟩
      · exact (Copies.storesInPage_iff (n := 0) (.refl hm)).2 (Nat.zero_le _)
      · unfold eInval
        omega
    · have hle := readResult_le (s.mem.read32 (fSize s.requested.file)) s.requested.fdOffset (s.mem.read32 reqN)
      rw [hc.storesInPage_iff]
      refine ⟨fun h _ => ⟨h.1, by omega⟩, fun h => ⟨(h hk).1, ?_⟩⟩
      have hpage := (h hk).2
      omega
  · obtain ⟨hk, mid, hle, hc⟩ := (serveRead_moves s).error hx
    have hfits := (hfit hk).1
    obtain ⟨n, rfl⟩ := Nat.exists_eq_add_of_le (Copies.le hc)
    exact hc.storesInPage_iff.2 (by omega)
  · rcases (serveWrite_moves s).ok hx with ⟨hno, hm⟩ | ⟨hk, hc⟩
    · refine ⟨fun _ hk => absurd hk hno, fun _ => ?_⟩
      exact (Copies.loadsInPage_iff (n := 0) (.refl hm)).2 (Nat.zero_le _)
    · rw [hc.loadsInPage_iff]
      exact ⟨fun h _ => h, fun h => h hk⟩
  · obtain ⟨hk, mid, hle, hc⟩ := (serveWrite_moves s).error hx
    have hfits := hfit hk
    obtain ⟨n, rfl⟩ := Nat.exists_eq_add_of_le (Copies.le hc)
    exact hc.loadsInPage_iff.2 (by omega)

/-! ## A read of two pages -/

/-- A block that `f` points to directly. -/
structure Mapped (s : Fs) (f n : Nat) (b : Word) : Prop where
  direct : n < ndirect
  ptr : s.mem.read32 (fDirect f n) = b
  nonzero : b ≠ 0
  onDisk : b < s.mem.read32 sNblocks

theorem diskaddr_mapped (h0 : b ≠ 0) (hb : b < s.mem.read32 sNblocks) {E : Panic → Fs → Prop} :
    Triple (diskaddr b) s (fun a t => s = t ∧ a = blockAddr b) E := by
  refine .bind (load_read32 _ s) ?_
  rintro _ _ ⟨rfl, rfl⟩
  refine .guard (fun hbad => ?_) fun _ => .pure ⟨rfl, rfl⟩
  rcases hbad with hbad | hbad
  · exact absurd hbad h0
  · exact absurd hb (BitVec.not_lt.2 hbad)

theorem fileGetBlock_mapped (h : Mapped s f n.toNat b) {E : Panic → Fs → Prop} :
    Triple (fileGetBlock f n) s (fun r t => s = t ∧ r = .ok (blockAddr b)) E := by
  have hlt := h.direct
  unfold fileGetBlock fileBlockWalk
  refine .ite (fun hge => absurd hlt (by omega)) fun _ => ?_
  rw [if_neg (by omega), if_pos hlt]
  refine .bind (.pure (Q := fun r t => s = t ∧ r = .ok (fDirect f n.toNat)) ⟨rfl, rfl⟩) ?_
  rintro _ _ ⟨rfl, rfl⟩
  refine .bind (load_read32 _ s) ?_
  rintro _ _ ⟨rfl, rfl⟩
  rw [h.ptr]
  refine .ite (fun _ => ?_) fun h0 => absurd h.nonzero h0
  refine .bind (diskaddr_mapped h.nonzero h.onDisk) ?_
  rintro _ _ ⟨rfl, rfl⟩
  exact .pure ⟨rfl, rfl⟩

theorem Mapped.move (h : Mapped s f n b) (hf : superAddr ≤ f) (hm : u.mem = s.mem.move dst src len)
    (hd : dst + len ≤ superAddr) : Mapped u f n b where
  direct := h.direct
  ptr := by
    rw [← h.ptr, hm]
    refine Mem.read32_congr fun x hx _ => Mem.move_of_outside (.inr ?_)
    unfold fDirect at hx
    omega
  nonzero := h.nonzero
  onDisk := by
    have hn : u.mem.read32 sNblocks = s.mem.read32 sNblocks := by
      rw [hm]
      refine Mem.read32_congr fun x hx _ => Mem.move_of_outside (.inr ?_)
      unfold sNblocks at hx
      omega
    rw [hn]
    exact h.onDisk

theorem copyBlocks_two (h : Mapped s f 0 b) (h' : Mapped s f 1 c) (hf : superAddr ≤ f) :
    Triple (copyBlocks false f 8192 (k + 1 + 1 + 1) fsreq 0) s (fun _ _ => True) (fun _ _ => False) := by
  refine .bind (fileGetBlock_mapped (n := (0#32).sdiv 4096#32) h) ?_
  rintro _ _ ⟨rfl, rfl⟩
  refine .ite (fun hd => absurd hd Bool.false_ne_true) fun _ => .bind memmove_ok ?_
  rintro _ u ⟨-, hu⟩
  refine .bind (fileGetBlock_mapped (n := (4096#32).sdiv 4096#32) (h'.move hf hu (by decide))) ?_
  rintro _ _ ⟨rfl, rfl⟩
  refine .ite (fun hd => absurd hd Bool.false_ne_true) fun _ => .bind memmove_ok ?_
  rintro _ v -
  exact .pure trivial

/-- A server with a file of two blocks open, and a client that reads both at once. -/
def twoPages : Fs where
  mem := .ofWords fun i =>
    if i = 0x3FFFC00 then 1024 else if i = 0x3FFFC01 then 8192 else if i = 0x4000401 then 8
    else if i = 0x4000422 then 8192 else if i = 0x4000424 then 3 else if i = 0x4000425 then 4 else 0
  moves := []
  opentab _ := ⟨1024, sRoot, 0, 2⟩

theorem twoPages_read32 (i : Nat) : twoPages.mem.read32 (4 * i) =
    if i = 0x3FFFC00 then 1024 else if i = 0x3FFFC01 then 8192 else if i = 0x4000401 then 8
    else if i = 0x4000422 then 8192 else if i = 0x4000424 then 3 else if i = 0x4000425 then 4 else 0 :=
  congrFun (Mem.words_ofWords _) i

theorem twoPages_known : twoPages.Known := ⟨by decide, (twoPages_read32 0x3FFFC00).symm⟩

theorem twoPages_returns : ∃ r t, exec serveRead twoPages = (.ok r, t) := by
  have hmapped : ∀ n b, n < ndirect → twoPages.mem.read32 (4 * (0x4000424 + n)) = b → b ≠ 0 → b < 8 →
      Mapped twoPages sRoot n b := by
    intro n b hn hp h0 hb
    refine ⟨hn, ?_, h0, ?_⟩
    · rw [← hp]
      congr 1
      unfold fDirect sRoot superAddr diskmap blksize
      omega
    · exact hb
  have hloop := copyBlocks_two (k := 8190) (hmapped 0 3 (by decide) (twoPages_read32 _) (by decide) (by decide))
    (hmapped 1 4 (by decide) (twoPages_read32 _) (by decide) (by decide)) (by decide)
  have hread : Triple (fileRead sRoot retBuf 8192 0) twoPages (fun _ _ => True) (fun _ _ => False) := by
    refine .bind (load_read32 _ twoPages) ?_
    rintro _ _ ⟨rfl, rfl⟩
    refine .ite (fun hle => absurd hle (by decide)) fun _ => .bind hloop ?_
    rintro r t -
    cases r <;> exact .pure trivial
  have hserve : Triple serveRead twoPages (fun _ _ => True) (fun _ _ => False) := by
    refine .bind (load_read32 _ twoPages) ?_
    rintro _ _ ⟨rfl, rfl⟩
    refine .bind (openfileLookup_known twoPages) ?_
    rintro _ _ ⟨rfl, ⟨hno, rfl⟩ | ⟨-, rfl⟩⟩
    · exact absurd twoPages_known hno
    · refine .get_bind ?_
      refine .bind (load_read32 _ twoPages) ?_
      rintro _ _ ⟨rfl, rfl⟩
      exact .bind hread fun r t _ => (advance_result _ r t).imp (fun _ _ _ => trivial)
  obtain ⟨r, t, hx, -⟩ := hserve.returns
  exact ⟨r, t, hx⟩

theorem long_read_overruns_page : ∃ r t, exec serveRead twoPages = (.ok r, t) ∧ ¬ StoresInPage twoPages t := by
  obtain ⟨r, t, hx⟩ := twoPages_returns
  refine ⟨r, t, hx, fun hin => ?_⟩
  obtain ⟨hno, -⟩ | ⟨-, hc, -⟩ := (serveRead_moves twoPages).ok hx
  · exact hno twoPages_known
  · have hsize : twoPages.mem.read32 (fSize twoPages.requested.file) = 8192 := twoPages_read32 0x4000422
    have hn : twoPages.mem.read32 reqN = 8192 := twoPages_read32 0x3FFFC01
    have hoff : twoPages.requested.fdOffset = 0 := rfl
    exact absurd (hc.storesInPage_iff.1 hin) (by decide)

end Jos.Fs
