import Jos.Fs.Filled

/-!
# Reading and writing

`file_read` and `file_write` go over a range block by block: each round gets
the block of the file and copies the part of the range that lies in it.
`Copied` says which bytes have been copied and that all others are as before.
What has been written is what a read of the same range returns
(`write_then_read`).
-/

namespace Jos.Fs

open Lib

/-! ## The loop -/

def Fs.copy (s : Fs) (toDisk : Bool) (data buf len : Nat) : Fs where
  mem := if toDisk then s.mem.move data buf len else s.mem.move buf data len
  moves := s.moves ++ [if toDisk then ⟨data, buf, len⟩ else ⟨buf, data, len⟩]
  opentab := s.opentab

def chunk (p stop : Nat) : Nat := min (blksize - p % blksize) (stop - p)

theorem toNat_ofNat_add_srem {pos : Word} (hp : pos.toNat < 2 ^ 31) (ha : a + blksize ≤ 2 ^ 32) :
    (BitVec.ofNat 32 a + pos.srem 4096#32).toNat = a + pos.toNat % blksize := by
  unfold blksize at *
  rw [BitVec.toNat_add, BitVec.toNat_ofNat, toNat_srem_of_lt hp]
  omega

section
variable {s : Fs} {E : Panic → Fs → Prop}

theorem memmove_out : Triple (memmove data buf len) s (fun _ t => s.copy true data buf len = t) E := .modify rfl

theorem memmove_in : Triple (memmove buf data len) s (fun _ t => s.copy false data buf len = t) E := .modify rfl

theorem fileGetBlock_inval {n : Word} (hn : ndirect + nindirect ≤ n.toNat) :
    Triple (fileGetBlock f n) s (fun r t => s = t ∧ r = .error (-eInval)) E := by
  unfold fileGetBlock
  exact .ite (fun _ => .pure ⟨rfl, rfl⟩) fun hlt => absurd hn hlt

end

/-- What every round keeps holds at the end. -/
theorem copyBlocks_rule {I : Nat → Fs → Prop} {E : Panic → Fs → Prop} {lo : Nat} {pos stop : Word} {s : Fs}
    (hstep : ∀ p t, lo ≤ p → p < stop.toNat → p < maxfilesize → I p t →
      Triple (fileGetBlock f (BitVec.ofNat 32 (p / blksize))) t
        (fun r u => ∃ a, r = .ok a ∧ a + blksize ≤ 2 ^ 32 ∧
          I (p + chunk p stop.toNat) (u.copy d (a + p % blksize) (buf + (p - lo)) (chunk p stop.toNat))) E)
    (hk : stop.toNat < pos.toNat + k) (hk0 : 0 < k) (hp : pos.toNat < 2 ^ 31) (hlo : lo ≤ pos.toNat) (hs : I pos.toNat s) :
    Triple (copyBlocks d f stop k (buf + (pos.toNat - lo)) pos) s
      (fun r t => r = loopResult pos stop ∧ I (pos.toNat + moved pos stop) t) E := by
  induction k generalizing s pos with
  | zero => omega
  | succ k ih =>
    rw [copyBlocks]
    refine .ite (fun hlt => ?_) fun hge => ?_
    · have hlt' := BitVec.lt_def.1 hlt
      have hdiv := toNat_sdiv_of_lt hp
      have hn : pos.sdiv 4096#32 = BitVec.ofNat 32 (pos.toNat / blksize) := by
        refine BitVec.eq_of_toNat_eq ?_
        rw [hdiv, BitVec.toNat_ofNat, blksize, Nat.mod_eq_of_lt (by omega)]
      by_cases hmax : pos.toNat < maxfilesize
      · have hsmall : (pos.sdiv 4096#32).toNat < ndirect + nindirect := by
          rw [hdiv]
          unfold maxfilesize blksize at hmax
          omega
        obtain ⟨hpos, hadd, hm, hreach⟩ := moved_next hlt hsmall
        have hlen : (roundLen pos stop).toNat = chunk pos.toNat stop.toNat := toNat_roundLen hlt hp
        rw [hn]
        refine .bind (hstep _ _ hlo hlt' hmax hs) ?_
        rintro _ u ⟨a, rfl, ha, hI⟩
        have hdata := toNat_ofNat_add_srem hp ha
        have hnext : Triple (copyBlocks d f stop k (buf + (pos.toNat - lo) + (roundLen pos stop).toNat) (pos + roundLen pos stop))
            (u.copy d (a + pos.toNat % blksize) (buf + (pos.toNat - lo)) (chunk pos.toNat stop.toNat))
            (fun r t => r = loopResult pos stop ∧ I (pos.toNat + moved pos stop) t) E := by
          have hend : pos.toNat + chunk pos.toNat stop.toNat ≤ maxfilesize := by
            unfold chunk maxfilesize blksize at *
            omega
          have hsmall' : maxfilesize < 2 ^ 31 := by decide
          rw [show buf + (pos.toNat - lo) + (roundLen pos stop).toNat = buf + ((pos + roundLen pos stop).toNat - lo) by omega]
          refine (ih (by omega) (by omega) (by omega) (by omega) (by rw [hadd, hlen]; exact hI)).imp ?_
          rintro r t ⟨hr, hI'⟩
          rw [hadd, Nat.add_assoc, ← hm] at hI'
          rw [loopResult, if_congr hreach rfl rfl] at hr
          exact ⟨hr, hI'⟩
        change Triple (do
          if d = true then memmove (BitVec.ofNat 32 a + pos.srem 4096#32).toNat (buf + (pos.toNat - lo)) (roundLen pos stop).toNat
          else memmove (buf + (pos.toNat - lo)) (BitVec.ofNat 32 a + pos.srem 4096#32).toNat (roundLen pos stop).toNat
          copyBlocks d f stop k (buf + (pos.toNat - lo) + (roundLen pos stop).toNat) (pos + roundLen pos stop)) u _ _
        rw [hdata, hlen]
        rw [hlen] at hnext
        cases d with
        | true =>
          refine .bind memmove_out ?_
          rintro _ _ rfl
          exact hnext
        | false =>
          refine .bind memmove_in ?_
          rintro _ _ rfl
          exact hnext
      · have hbig : ndirect + nindirect ≤ (pos.sdiv 4096#32).toNat := by
          rw [hdiv]
          unfold maxfilesize blksize at hmax
          omega
        obtain ⟨hm, hno⟩ := moved_end hlt hbig
        refine .bind (fileGetBlock_inval hbig) ?_
        rintro _ _ ⟨rfl, rfl⟩
        rw [hm, Nat.add_zero]
        exact .pure ⟨(if_neg hno).symm, hs⟩
    · rw [moved_of_ge hge, Nat.add_zero]
      exact .pure ⟨(if_pos (reaches_of_ge hge)).symm, hs⟩

/-! ## Which bytes are copied -/

def Words.addr (w : Words) (x q : Nat) : Nat := 4 * blockIx (w.ptr x (q / blksize)).toNat + q % blksize

/-- Where byte `q` is on the disk or in the buffer, which starts with byte `lo`. -/
def Words.place (w : Words) (x lo buf : Nat) (onDisk : Bool) (q : Nat) : Nat :=
  if onDisk then w.addr x q else buf + (q - lo)

def lastSlot (lo hi : Nat) : Nat := if lo < hi then blocksFor hi else lo / blksize

def Words.Slots (w : Words) (x lo hi : Nat) : Prop := ∀ k, lo / blksize ≤ k → k < lastSlot lo hi → w.Ready x k

/-- Bytes `lo` to `hi` of the file have been copied to or from the buffer. -/
structure Copied (toDisk : Bool) (V : Volume) (x lo hi buf : Nat) (s t : Fs) : Prop where
  filled : Filled V x (lo / blksize) (lastSlot lo hi) s.words t.words
  moved : ∀ q, lo ≤ q → q < hi →
    t.mem (t.words.place x lo buf toDisk q) = s.mem (t.words.place x lo buf (!toDisk) q)
  rest : ∀ a, ¬ Touched V x (lo / blksize) (lastSlot lo hi) s.words t.words (a / 4) →
    (∀ q, lo ≤ q → q < hi → a ≠ t.words.place x lo buf toDisk q) → t.mem a = s.mem a

/-- Where the buffer may be: `file_read` stores into it. -/
def BufferOk (toDisk : Bool) (V : Volume) (x : Nat) (w : Words) (buf len : Nat) : Prop :=
  ∀ a, buf ≤ a → a < buf + len → Quiet V x w (a / 4) ∧ (toDisk = false → ¬ OnDisk V.N (a / 4))

section
variable {V : Volume} {x n lo p len buf : Nat} {s t u : Fs} {w w' : Words} {b : Word}

theorem Words.addr_inBlock (w : Words) (x q : Nat) : InBlock (w.ptr x (q / blksize)).toNat (w.addr x q / 4) := by
  unfold addr InBlock blksize
  omega

theorem Words.addr_congr (h : w'.ptr x (q / blksize) = w.ptr x (q / blksize)) : w'.addr x q = w.addr x q := by
  unfold addr
  rw [h]

theorem Words.place_congr (h : w'.ptr x (q / blksize) = w.ptr x (q / blksize)) :
    w'.place x lo buf side q = w.place x lo buf side q := by
  unfold place
  rw [addr_congr h]

theorem Words.addr_inj (h : DiskOk V w) (hx : V.file x) (hq : q / blksize < V.cover x) (hq' : q' / blksize < V.cover x)
    (hne : w.ptr x (q / blksize) ≠ 0) (hne' : w.ptr x (q' / blksize) ≠ 0) (heq : w.addr x q = w.addr x q') : q = q' := by
  have hin := w.addr_inBlock x q
  rw [heq] at hin
  have hb := hin.unique (w.addr_inBlock x q')
  have hsame := h.owned.inj (r := .block x (q / blksize)) ⟨hx, hq, hne, hb⟩
    (show Holds V w (.block x (q' / blksize)) _ from ⟨hx, hq', hne', rfl⟩)
  have hdiv := (Holder.block.inj hsame).2
  unfold addr at heq
  rw [hb] at heq
  have hq := Nat.div_add_mod q blksize
  have hq' := Nat.div_add_mod q' blksize
  rw [hdiv] at hq
  omega

theorem Words.place_add (w : Words) (x buf : Nat) (side : Bool) (hlo : lo ≤ p) (hl : p ≤ q) (hu : q < p + len)
    (hlen : len ≤ blksize - p % blksize) : w.place x lo buf side q = w.place x lo buf side p + (q - p) := by
  cases side with
  | true =>
    have hdiv : q / blksize = p / blksize := by
      unfold blksize at *
      omega
    simp only [place, if_true, addr, hdiv]
    unfold blksize at *
    omega
  | false =>
    simp only [place, Bool.false_eq_true, if_false]
    omega

theorem copy_mem (u : Fs) (w : Words) (x buf : Nat) (d : Bool) (hlo : lo ≤ p) (hlen : len ≤ blksize - p % blksize) :
    (∀ q, p ≤ q → q < p + len → (u.copy d (w.place x lo buf true p) (w.place x lo buf false p) len).mem (w.place x lo buf d q) =
      u.mem (w.place x lo buf (!d) q)) ∧
    ∀ a, (∀ q, p ≤ q → q < p + len → a ≠ w.place x lo buf d q) →
      (u.copy d (w.place x lo buf true p) (w.place x lo buf false p) len).mem a = u.mem a := by
  have hmem : (u.copy d (w.place x lo buf true p) (w.place x lo buf false p) len).mem =
      u.mem.move (w.place x lo buf d p) (w.place x lo buf (!d) p) len := by
    cases d <;> rfl
  rw [hmem]
  refine ⟨fun q hl hu => ?_, fun a ha => Mem.move_of_outside ?_⟩
  · rw [w.place_add x buf d hlo hl hu hlen, w.place_add x buf (!d) hlo hl hu hlen]
    unfold Mem.move
    rw [if_pos (by omega), Nat.add_sub_cancel_left]
  · by_contra hin
    refine ha (p + (a - w.place x lo buf d p)) (by omega) (by omega) ?_
    rw [w.place_add x buf d hlo (by omega) (by omega) hlen]
    omega

theorem Filled.copy (h : Filled V x lo' (p / blksize + 1) w u.words) (hx : V.file x) (hn : p / blksize < V.cover x)
    (hne : u.words.ptr x (p / blksize) ≠ 0) (hlo : lo ≤ p) (hlen : len ≤ blksize - p % blksize)
    (hbuf : d = false → ∀ a, buf ≤ a → a < buf + (p + len - lo) → ¬ OnDisk V.N (a / 4))
    (hv : u.copy d (u.words.place x lo buf true p) (u.words.place x lo buf false p) len = v) :
    SameFiles V u.words v.words ∧ Filled V x lo' (p / blksize + 1) w v.words := by
  have hhi := Nat.lt_of_lt_of_le hn V.cover_le
  have hmem := (copy_mem u u.words x buf d hlo hlen).2
  rw [hv] at hmem
  cases d with
  | true =>
    refine h.store hx hhi hn hne fun i hi => Mem.words_congr fun a hl hu => hmem a fun q hq hq' heq => hi ?_
    have hdiv : q / blksize = p / blksize := by
      unfold blksize at *
      omega
    have hin := u.words.addr_inBlock x q
    rw [hdiv] at hin
    have ha : i = u.words.addr x q / 4 := by
      have heq' : a = u.words.addr x q := heq
      omega
    exact ha ▸ hin
  | false =>
    have hoff : ∀ i, OnDisk V.N i → v.words i = u.words i := by
      intro i hi
      refine Mem.words_congr fun a hl hu => hmem a fun q hq hq' heq => ?_
      have heq' : a = buf + (q - lo) := heq
      refine hbuf rfl a (by omega) (by omega) ?_
      rwa [show a / 4 = i by omega]
    exact ⟨h.ok.same_off hoff, h.off hx hhi hoff⟩

theorem lastSlot_next (hlo : lo ≤ p) (h0 : 0 < len) (hlen : len ≤ blksize - p % blksize) :
    lastSlot lo (p + len) = p / blksize + 1 := by
  unfold lastSlot blocksFor
  rw [if_pos (by omega)]
  unfold blksize at *
  omega

section
variable (hF : Filled V x (lo / blksize) m w w') (hx : V.file x) (hm : m ≤ V.cover x) (hend : (hi - 1) / blksize < m)
  (hbuf : BufferOk d V x w buf (hi - lo))

include hF hm hend

theorem place_mapped (hl : lo ≤ q) (hu : q < hi) : q / blksize < V.cover x ∧ w'.ptr x (q / blksize) ≠ 0 := by
  have hlow : lo / blksize ≤ q / blksize := Nat.div_le_div_right hl
  have hup : q / blksize ≤ (hi - 1) / blksize := Nat.div_le_div_right (by omega)
  exact ⟨by omega, hF.mapped _ hlow (by omega)⟩

include hx hbuf

/-- What is copied is not among the words that change otherwise. -/
theorem place_not_touched (side : Bool) (hl : lo ≤ q) (hu : q < hi) :
    ¬ Touched V x (lo / blksize) m w w' (w'.place x lo buf side q / 4) := by
  have hcap := @V.cover_le x
  cases side with
  | true =>
    obtain ⟨hq, hne⟩ := place_mapped hF hm hend hl hu
    exact hF.data_not_touched hx hq hne (by omega) (w'.addr_inBlock x q)
  | false => exact (hbuf (buf + (q - lo)) (by omega) (by omega)).1.not_touched hF hx (by omega)

theorem addr_ne_buffer (hl : lo ≤ q) (hu : q < hi) (hl' : lo ≤ q') (hu' : q' < hi) :
    w'.addr x q ≠ buf + (q' - lo) := by
  intro heq
  obtain ⟨hq, hne⟩ := place_mapped hF hm hend hl hu
  refine (hbuf (buf + (q' - lo)) (by omega) (by omega)).1.not_data hF hx hq hne ?_
  rw [← heq]
  exact w'.addr_inBlock x q

theorem place_ne (hl : lo ≤ q) (hu : q < hi) (hl' : lo ≤ q') (hu' : q' < hi) :
    w'.place x lo buf (!d) q ≠ w'.place x lo buf d q' := by
  cases d with
  | true => exact (addr_ne_buffer hF hx hm hend hbuf hl' hu' hl hu).symm
  | false => exact addr_ne_buffer hF hx hm hend hbuf hl hu hl' hu'

omit hbuf

theorem place_inj (side : Bool) (hl : lo ≤ q) (hu : q < hi) (hl' : lo ≤ q') (hu' : q' < hi)
    (heq : w'.place x lo buf side q = w'.place x lo buf side q') : q = q' := by
  cases side with
  | true =>
    obtain ⟨hq, hne⟩ := place_mapped hF hm hend hl hu
    obtain ⟨hq', hne'⟩ := place_mapped hF hm hend hl' hu'
    exact Words.addr_inj hF.ok hx hq hq' hne hne' heq
  | false =>
    have heq' : buf + (q - lo) = buf + (q' - lo) := heq
    omega

end

theorem div_lt_lastSlot (hslot : lastSlot lo p = p / blksize) (hl : lo ≤ q) (hu : q < p) : q / blksize < p / blksize := by
  unfold lastSlot blocksFor at hslot
  rw [if_pos (by omega)] at hslot
  unfold blksize at *
  omega

/-- One round of the loop. -/
theorem Copied.round (h : Copied d V x lo p buf s t) (hx : V.file x) (hlo : lo ≤ p)
    (hslot : lastSlot lo p = p / blksize) (hn : p / blksize < V.cover x) (hg : Gets V x (p / blksize) b t.words u.words)
    (h0 : 0 < len) (hlen : len ≤ blksize - p % blksize) (hbuf : BufferOk d V x s.words buf (p + len - lo))
    (hv : u.copy d (u.words.place x lo buf true p) (u.words.place x lo buf false p) len = v) :
    SameFiles V u.words v.words ∧ Copied d V x lo (p + len) buf s v := by
  have hn' := Nat.lt_of_lt_of_le hn V.cover_le
  have hfirst := h.filled
  have hrest := h.rest
  rw [hslot] at hfirst hrest
  have hlop : lo / blksize ≤ p / blksize := Nat.div_le_div_right hlo
  have hF := hfirst.trans (.of_gets hg hfirst.ok hx hfirst.data hn') hx hlop (by omega) (by omega)
  have hend : (p + len - 1) / blksize < p / blksize + 1 := by
    unfold blksize at *
    omega
  -- The places of earlier bytes have not moved.
  have hold : ∀ side q, lo ≤ q → q < p → u.words.place x lo buf side q = t.words.place x lo buf side q := by
    intro side q hl hu
    have hq := div_lt_lastSlot hslot hl hu
    exact Words.place_congr (hg.grows.ptr x _ hx (by omega) (hfirst.mapped _ (Nat.div_le_div_right hl) hq))
  have hget : ∀ a, ¬ Touched V x (lo / blksize) (p / blksize + 1) s.words u.words (a / 4) → u.mem a = t.mem a := by
    intro a ha
    refine Mem.byte_of_words (hg.frame hx hn' fun ht => ha (ht.right hfirst hx hlop (by omega)))
  have hbefore : ∀ a, ¬ Touched V x (lo / blksize) (p / blksize + 1) s.words u.words (a / 4) →
      (∀ q, lo ≤ q → q < p → a ≠ u.words.place x lo buf d q) → u.mem a = s.mem a := by
    intro a ha hne
    rw [hget a ha]
    refine hrest a (fun ht => ha (ht.left hfirst hg.grows hx (by omega))) fun q hl hu => ?_
    rw [← hold d q hl hu]
    exact hne q hl hu
  obtain ⟨hnew, hother⟩ := copy_mem u u.words x buf d hlo hlen
  rw [hv] at hnew hother
  obtain ⟨hsame, hFv⟩ := hF.copy hx hn (hF.mapped _ hlop (by omega)) hlo hlen (fun hd a hl hu => (hbuf a hl hu).2 hd) hv
  have hplace : ∀ side q, lo ≤ q → q < p + len → v.words.place x lo buf side q = u.words.place x lo buf side q := by
    intro side q hl hu
    have hq := (place_mapped hF hn hend hl hu).1
    exact Words.place_congr (hsame.ptr x _ hx (Nat.lt_of_lt_of_le hq V.cover_le))
  have hlast := lastSlot_next hlo h0 hlen
  refine ⟨hsame, hlast ▸ hFv, fun q hl hu => ?_, fun a ha hne => ?_⟩
  · rw [hplace d q hl hu, hplace (!d) q hl hu]
    by_cases hqp : q < p
    · have hnotnew : ∀ q', p ≤ q' → q' < p + len → u.words.place x lo buf d q ≠ u.words.place x lo buf d q' := by
        intro q' hl' hu' heq
        have hsame := place_inj hF hx hn hend d hl hu (by omega) hu' heq
        omega
      rw [hother _ hnotnew, hget _ (place_not_touched hF hx hn hend hbuf d hl hu), hold d q hl hqp, h.moved q hl hqp,
        hold (!d) q hl hqp]
    · rw [hnew q (by omega) hu]
      exact hbefore _ (place_not_touched hF hx hn hend hbuf (!d) hl hu) fun q' hl' hu' =>
        place_ne hF hx hn hend hbuf hl hu hl' (by omega)
  · rw [hlast, Touched.congr (hsame.table x hx)] at ha
    rw [hother a fun q hl hu => hplace d q (by omega) hu ▸ hne q (by omega) hu]
    exact hbefore a ha fun q hl hu => hplace d q hl (by omega) ▸ hne q hl (by omega)

theorem lastSlot_self (lo : Nat) : lastSlot lo lo = lo / blksize := if_neg (Nat.lt_irrefl lo)

theorem Copied.refl (h : DiskOk V s.words) (hd : s.words.Data V x) : Copied d V x lo lo buf s s where
  filled := by
    rw [lastSlot_self]
    exact .refl h hd
  moved q hl hu := absurd hl (by omega)
  rest _ _ _ := rfl

theorem Copied.attr (hc : Copied d V x lo hi buf s t) (hx : V.file x) (hy : V.file y) (hk : k < 34)
    (hcov : lastSlot lo hi ≤ V.cover x)
    (hbuf : d = false → ∀ a, buf ≤ a → a < buf + (hi - lo) → ¬ OnDisk V.N (a / 4)) :
    t.words (y + k) = s.words (y + k) := by
  have hF := hc.filled
  have hcap := @V.cover_le x
  refine Mem.words_congr fun a hl hu => hc.rest a ?_ fun q hql hqu heq => ?_
  · rw [show a / 4 = y + k by omega]
    exact hF.attr_not_touched hx hy hk (by omega)
  · cases d with
    | true =>
      have hin := t.words.addr_inBlock x q
      have hslot : q / blksize < lastSlot lo hi := by
        rw [lastSlot, if_pos (by omega)]
        exact div_lt_blocksFor hqu
      have heq' : a = t.words.addr x q := heq
      rw [show t.words.addr x q / 4 = y + k by omega] at hin
      exact Volume.field_not_inBlock hy (by omega)
        (hF.data _ (by omega) (hF.mapped _ (Nat.div_le_div_right hql) hslot)) hin
    | false =>
      have heq' : a = buf + (q - lo) := heq
      refine hbuf rfl a (by omega) (by omega) ?_
      rw [show a / 4 = y + k by omega]
      exact Volume.field_onDisk hy (by omega)

theorem add_moved (pos stop : Word) (hlt : pos.toNat < stop.toNat) (hp : pos.toNat < maxfilesize) :
    pos.toNat + Fs.moved pos stop = min stop.toNat maxfilesize := by
  have hsmall : pos.toNat < 2 ^ 31 := by
    unfold maxfilesize ndirect nindirect blksize at hp
    omega
  rw [Fs.moved, if_pos (BitVec.lt_def.2 hlt), if_pos hsmall]
  omega

theorem block_end (V : Volume) (hb : c < V.N) : 4 * blockIx c + blksize ≤ 2 ^ 32 := by
  have hfit := V.fits
  unfold blockIx
  unfold blksize disksize at *
  omega

/-- The loop is at the start, at the start of a block, or at the end. -/
def AtRound (lo stop p : Nat) : Prop := p = lo ∨ p % blksize = 0 ∨ stop ≤ p

theorem copyStep {pos stop : Word} (hc : Copied d V x pos.toNat p buf s t) (hal : AtRound pos.toNat stop.toNat p)
    (hlo : pos.toNat ≤ p) (hlt : p < stop.toNat) (hmax : p < maxfilesize) (hx : V.file x)
    (hcov : lastSlot pos.toNat (pos.toNat + moved pos stop) ≤ V.cover x)
    (hz : s.words.Slots x pos.toNat (pos.toNat + moved pos stop) ∨ s.words.Clean V.N)
    (hbuf : BufferOk d V x s.words buf (moved pos stop)) :
    Triple (fileGetBlock (4 * x) (BitVec.ofNat 32 (p / blksize))) t
      (fun r u => ∃ (b : Word) (v : Fs), r = .ok (4 * blockIx b.toNat) ∧ 4 * blockIx b.toNat + blksize ≤ 2 ^ 32 ∧
        Gets V x (p / blksize) b t.words u.words ∧
        u.copy d (4 * blockIx b.toNat + p % blksize) (buf + (p - pos.toNat)) (chunk p stop.toNat) = v ∧
        SameFiles V u.words v.words ∧ AtRound pos.toNat stop.toNat (p + chunk p stop.toNat) ∧
        Copied d V x pos.toNat (p + chunk p stop.toNat) buf s v)
      (fun e u => DiskFull (s.words.frees V.N < s.words.want x (pos.toNat / blksize)
        (lastSlot pos.toNat (pos.toNat + moved pos stop))) e u ∧ Spoiled x t.words u.words) := by
  have hend := add_moved pos stop (by omega) (by omega)
  have hslot : lastSlot pos.toNat p = p / blksize := by
    unfold AtRound at hal
    unfold lastSlot blocksFor
    unfold blksize at *
    split <;> omega
  have h0 : 0 < chunk p stop.toNat := by
    unfold chunk blksize
    omega
  have hlen : chunk p stop.toNat ≤ blksize - p % blksize := Nat.min_le_left ..
  have hle : p + chunk p stop.toNat ≤ pos.toNat + moved pos stop := by
    rw [hend]
    unfold chunk maxfilesize blksize at *
    omega
  have hnext : p / blksize < lastSlot pos.toNat (pos.toNat + moved pos stop) := by
    rw [hend, lastSlot, if_pos (by omega)]
    exact div_lt_blocksFor (by omega)
  have hn : (BitVec.ofNat 32 (p / blksize)).toNat = p / blksize := by
    have hpow := stop.isLt
    have hdiv := Nat.div_le_self p blksize
    rw [BitVec.toNat_ofNat, Nat.mod_eq_of_lt (by omega)]
  have hF := hc.filled
  rw [hslot] at hF
  have hready : t.words.Ready x (p / blksize) ∨ t.words.Clean V.N := by
    refine hz.imp (fun hslots => ?_) fun hclean => hF.grows.cleaned hclean
    exact hF.grows.ready hx (hslots _ (Nat.div_le_div_right hlo) hnext)
  refine (fileGetBlock_ok hF.ok rfl hx (by omega) (hn.symm ▸ hready)).mono ?_ fun _ _ he => ⟨he.1.mono fun hfull => ?_, he.2⟩
  · rintro _ u ⟨b, rfl, hg⟩
    rw [hn] at hg
    have hal' : AtRound pos.toNat stop.toNat (p + chunk p stop.toNat) := by
      unfold AtRound chunk blksize at *
      omega
    have hround := hc.round hx hlo hslot (by omega) hg h0 hlen (fun a hl hu => hbuf a hl (by omega)) rfl
    rw [Words.place, if_pos rfl, Words.addr, hg.self] at hround
    exact ⟨b, _, rfl, block_end V hg.lt, hg, rfl, hround.1, hal', hround.2⟩
  · rw [hn] at hfull
    exact hF.want_lt (Nat.div_le_div_right hlo) hnext (Nat.lt_of_lt_of_le (Nat.lt_of_lt_of_le hnext hcov) V.cover_le) hfull

theorem copyBlocks_ok (h : DiskOk V s.words) (hx : V.file x) (hd : s.words.Data V x) {pos stop : Word}
    (hp : pos.toNat < 2 ^ 31) (hcov : lastSlot pos.toNat (pos.toNat + moved pos stop) ≤ V.cover x)
    (hz : s.words.Slots x pos.toNat (pos.toNat + moved pos stop) ∨ s.words.Clean V.N)
    (hbuf : BufferOk d V x s.words buf (moved pos stop)) (hk : stop.toNat < pos.toNat + k) (hk0 : 0 < k) :
    Triple (copyBlocks d (4 * x) stop k buf pos) s
      (fun r t => r = loopResult pos stop ∧ Copied d V x pos.toNat (pos.toNat + moved pos stop) buf s t)
      (DiskFull (s.words.frees V.N < s.words.want x (pos.toNat / blksize)
        (lastSlot pos.toNat (pos.toNat + moved pos stop)))) := by
  have hrule : Triple (copyBlocks d (4 * x) stop k (buf + (pos.toNat - pos.toNat)) pos) s _ (DiskFull (s.words.frees V.N <
      s.words.want x (pos.toNat / blksize) (lastSlot pos.toNat (pos.toNat + moved pos stop)))) :=
    copyBlocks_rule (I := fun p t => AtRound pos.toNat stop.toNat p ∧ Copied d V x pos.toNat p buf s t)
      ?_ hk hk0 hp (Nat.le_refl _) ⟨.inl rfl, .refl h hd⟩
  · rw [Nat.sub_self, Nat.add_zero] at hrule
    exact hrule.imp (fun r t hq => ⟨hq.1, hq.2.2⟩)
  · rintro p t hlo hlt hmax ⟨hal, hc⟩
    refine (copyStep hc hal hlo hlt hmax hx hcov hz hbuf).mono ?_ fun _ _ he => he.1
    rintro _ u ⟨b, _, rfl, hend, -, rfl, -, hal', hc'⟩
    exact ⟨_, rfl, hend, hal', hc'⟩

/-! ## `file_read` -/

theorem moved_inside {pos stop : Word} (hstop : stop.toNat = pos.toNat + len) (hmax : pos.toNat + len ≤ maxfilesize) :
    Fs.moved pos stop = len ∧ loopResult pos stop = .ok () := by
  have hsmall : pos.toNat < 2 ^ 31 := by
    unfold maxfilesize ndirect nindirect blksize at hmax
    omega
  constructor
  · unfold Fs.moved
    simp only [BitVec.lt_def]
    split_ifs <;> omega
  · refine if_pos fun _ => ?_
    rw [if_pos hsmall]
    omega

theorem fileRead_ok (h : DiskOk V s.words) (hx : V.file x) (hd : s.words.Data V x) {count offset : Word}
    (hoff : offset.toNat < 2 ^ 31) (hsize : (s.words (x + 32)).toNat ≤ maxfilesize)
    (hlen : len = min count.toNat ((s.words (x + 32)).toNat - offset.toNat))
    (hcov : lastSlot offset.toNat (offset.toNat + len) ≤ V.cover x)
    (hz : s.words.Slots x offset.toNat (offset.toNat + len) ∨ s.words.Clean V.N)
    (hbuf : BufferOk false V x s.words buf len) :
    Triple (fileRead (4 * x) buf count offset) s
      (fun r t => r = len ∧ Copied false V x offset.toNat (offset.toNat + len) buf s t)
      (DiskFull (s.words.frees V.N < s.words.want x (offset.toNat / blksize) (lastSlot offset.toNat (offset.toNat + len)))) := by
  have hcap : (s.words (x + 32)).toNat < 2 ^ 31 := by
    unfold maxfilesize ndirect nindirect blksize at hsize
    omega
  unfold fileRead
  rw [fSize_eq]
  refine .bind (load_ok rfl _) ?_
  rintro _ _ ⟨rfl, rfl⟩
  rw [toInt_of_lt hcap, toInt_of_lt hoff]
  refine .ite (fun hge => ?_) fun hlt => ?_
  · obtain rfl : len = 0 := by omega
    exact .pure ⟨rfl, .refl h hd⟩
  · have hcount : (minWord count (s.words (x + 32) - offset)).toNat = len := by
      rw [toNat_minWord, toNat_sub_of_lt (BitVec.lt_def.2 (by omega)), hlen]
    have hstop : (offset + minWord count (s.words (x + 32) - offset)).toNat = offset.toNat + len := by
      rw [BitVec.toNat_add, hcount, Nat.mod_eq_of_lt (by omega)]
    obtain ⟨hmoved, hres⟩ := moved_inside hstop (by omega)
    have hloop : Triple (copyBlocks false (4 * x) (offset + minWord count (s.words (x + 32) - offset))
        ((minWord count (s.words (x + 32) - offset)).toNat + 1) buf offset) s _ _ :=
      copyBlocks_ok h hx hd hoff (hmoved.symm ▸ hcov) (hmoved.symm ▸ hz) (hmoved.symm ▸ hbuf) (by omega) (by omega)
    rw [hmoved, hres] at hloop
    refine .bind hloop ?_
    rintro _ t ⟨rfl, hc⟩
    refine .pure ⟨?_, hc⟩
    rw [toInt_of_lt (by omega), hcount]

theorem fileRead_mapped (out : Nat) (count offset : Word) (h : DiskOk V s.words) (hx : V.file x) (hd : s.words.Data V x)
    (hsize : (s.words (x + 32)).toNat ≤ maxfilesize) (hend : offset.toNat + count.toNat ≤ (s.words (x + 32)).toNat)
    (hcov : lastSlot offset.toNat (offset.toNat + count.toNat) ≤ V.cover x)
    (hmap : ∀ k, offset.toNat / blksize ≤ k → k < lastSlot offset.toNat (offset.toNat + count.toNat) → s.words.ptr x k ≠ 0)
    (hout : ∀ a, out ≤ a → a < out + count.toNat → ¬ OnDisk V.N (a / 4)) :
    ∃ t, exec (fileRead (4 * x) out count offset) s = (.ok count.toNat, t) ∧
      ∀ q < count.toNat, t.mem (out + q) = s.byteAt x (offset.toNat + q) := by
  have hcap := @V.cover_le x
  have hlen : count.toNat = min count.toNat ((s.words (x + 32)).toNat - offset.toNat) := by omega
  have hbound : maxfilesize < 2 ^ 31 := by decide
  have hread : Triple (fileRead (4 * x) out count offset) s _ _ := fileRead_ok h hx hd (by omega)
    hsize hlen hcov (.inl fun k hl hu => Words.ready_of_ptr (hmap k hl hu)) fun a hl hu => ⟨.of_off h hx (hout a hl hu), fun _ => hout a hl hu⟩
  rw [Words.want_mapped hmap] at hread
  have hnever : Triple (fileRead (4 * x) out count offset) s _ (fun _ _ => False) :=
    hread.imp_error fun _ _ he => absurd he.2 (Nat.not_lt_zero _)
  obtain ⟨r, t, hexec, rfl, hc⟩ := hnever.returns
  refine ⟨t, hexec, fun q hq => ?_⟩
  have hmoved := hc.moved (offset.toNat + q) (by omega) (by omega)
  have hslot : (offset.toNat + q) / blksize < lastSlot offset.toNat (offset.toNat + count.toNat) := by
    rw [lastSlot, if_pos (by omega)]
    exact div_lt_blocksFor (by omega)
  have haddr : t.words.addr x (offset.toNat + q) = s.words.addr x (offset.toNat + q) :=
    Words.addr_congr (hc.filled.grows.ptr x _ hx (by omega) (hmap _ (Nat.div_le_div_right (by omega)) hslot))
  rw [Words.place, Words.place, if_neg (by simp), if_pos (by rfl), Nat.add_sub_cancel_left, haddr] at hmoved
  exact hmoved

theorem fileRead_byte (h : DiskOk V s.words) (hx : V.file x) (hd : s.words.Data V x)
    (hsize : (s.words (x + 32)).toNat ≤ maxfilesize) (hq : q < (s.words (x + 32)).toNat) (hcov : q / blksize < V.cover x)
    (hne : s.words.ptr x (q / blksize) ≠ 0) (hout : ¬ OnDisk V.N (out / 4)) :
    ∃ t, exec (fileRead (4 * x) out 1 (BitVec.ofNat 32 q)) s = (.ok 1, t) ∧ t.mem out = s.byteAt x q := by
  have hpos : (BitVec.ofNat 32 q).toNat = q := by
    have hbound : maxfilesize < 2 ^ 32 := by decide
    rw [BitVec.toNat_ofNat, Nat.mod_eq_of_lt (by omega)]
  have hlast : lastSlot q (q + 1) = q / blksize + 1 := lastSlot_next (Nat.le_refl q) (by omega) (by unfold blksize; omega)
  have hone : (1 : Word).toNat = 1 := rfl
  have hread := fileRead_mapped out 1 (BitVec.ofNat 32 q) h hx hd hsize
  rw [hpos, hone, hlast] at hread
  have hmap : ∀ k, q / blksize ≤ k → k < q / blksize + 1 → s.words.ptr x k ≠ 0 := by
    intro k hl hu
    obtain rfl : k = q / blksize := by omega
    exact hne
  have hoff : ∀ a, out ≤ a → a < out + 1 → ¬ OnDisk V.N (a / 4) := by
    intro a hl hu
    obtain rfl : a = out := by omega
    exact hout
  obtain ⟨t, hexec, hbytes⟩ := hread (by omega) (by omega) hmap hoff
  exact ⟨t, hexec, hbytes 0 (by omega)⟩

/-! ## `file_write` -/

def Words.grown (w : Words) (x : Nat) (size : Word) : Words :=
  if w (x + 32) < size then Function.update w (x + 32) size else w

section
variable {size : Word}

theorem Words.grown_of_ne (w : Words) (size : Word) (hi : i ≠ x + 32) : w.grown x size i = w i := by
  unfold grown
  split
  · exact Function.update_of_ne hi ..
  · rfl

theorem Words.grown_size (w : Words) (x : Nat) (size : Word) :
    (w.grown x size (x + 32)).toNat = max (w (x + 32)).toNat size.toNat := by
  unfold grown
  split
  · rename_i hlt
    rw [BitVec.lt_def] at hlt
    rw [Function.update_self]
    omega
  · rename_i hge
    bv_omega

theorem DiskOk.same_grown (h : DiskOk V w) (size : Word) (hx : V.file x) : SameFiles V w (w.grown x size) := by
  unfold Words.grown
  split
  · exact h.same_field hx (by omega)
  · exact ⟨fun _ _ => rfl, fun _ _ _ _ => rfl⟩

theorem DiskOk.grown (h : DiskOk V w) (hx : V.file x) : DiskOk V (w.grown x size) := by
  unfold Words.grown
  split
  · exact h.field hx (by omega)
  · exact h

theorem Words.free_grown (hx : V.file x) (hc : InBitmap V.N (bitmapIx c)) : (w.grown x size).free c = w.free c := by
  unfold Words.free
  rw [w.grown_of_ne]
  rintro heq
  exact Volume.field_not_bitmap hx (by omega) (heq ▸ hc)

theorem DiskOk.grows_grown (h : DiskOk V w) (size : Word) (hx : V.file x) : Grows V w (w.grown x size) where
  table y hy _ := (h.same_grown _ hx).table y hy
  ptr y k hy hk _ := (h.same_grown _ hx).ptr y k hy hk
  free c hc hf := by rwa [Words.free_grown hx (inBitmap_bitmapIx hc)] at hf
  clean c hc hf i hi := by
    rw [Words.free_grown hx (inBitmap_bitmapIx hc)] at hf
    refine w.grown_of_ne _ ?_
    rintro rfl
    exact (Plain.of_free h hc hf).field_not hx (by omega) hi

theorem Quiet.grown (hq : Quiet V x w i) (h : DiskOk V w) (hx : V.file x) : Quiet V x (w.grown x size) i where
  bitmap := hq.bitmap
  record := hq.record
  free c hc hf := hq.free c hc (by rwa [Words.free_grown hx (inBitmap_bitmapIx hc)] at hf)
  table c ht := by
    unfold Words.Tab at ht
    rw [(h.same_grown _ hx).table x hx] at ht
    exact hq.table c ht
  data k hk := by
    rw [(h.same_grown _ hx).ptr x k hx (Nat.lt_of_lt_of_le hk V.cover_le)]
    exact hq.data k hk

theorem fileSetSize_grow (hx : V.file x) (hge : ¬ size.toInt < (s.words (x + 32)).toInt) {E : Panic → Fs → Prop} :
    Triple (fileSetSize (4 * x) size) s (fun _ t => t.words = Function.update s.words (x + 32) size) E := by
  unfold fileSetSize
  rw [fSize_eq]
  refine .bind (load_ok rfl _) ?_
  rintro _ _ ⟨rfl, rfl⟩
  refine .ite (fun hlt => absurd hlt hge) fun _ => .bind (store_ok rfl _ _) ?_
  intro _ t ht
  refine .bind (flush_field hx) ?_
  rintro _ _ rfl
  exact .pure ht

theorem fileWrite_ok (h : DiskOk V s.words) (hx : V.file x) (hd : s.words.Data V x) {count offset : Word}
    (hsize : (s.words (x + 32)).toNat ≤ maxfilesize) (hmax : offset.toNat + count.toNat ≤ maxfilesize)
    (hcov : lastSlot offset.toNat (offset.toNat + count.toNat) ≤ V.cover x)
    (hz : s.words.Slots x offset.toNat (offset.toNat + count.toNat) ∨ s.words.Clean V.N)
    (hbuf : BufferOk true V x s.words buf count.toNat) :
    Triple (fileWrite (4 * x) buf count offset) s
      (fun r t => r = count.toNat ∧ ∃ u : Fs, u.words = s.words.grown x (offset + count) ∧
        Copied true V x offset.toNat (offset.toNat + count.toNat) buf u t)
      (DiskFull (s.words.frees V.N < s.words.want x (offset.toNat / blksize)
        (lastSlot offset.toNat (offset.toNat + count.toNat)))) := by
  have hcap := @V.cover_le x
  have hbound : maxfilesize < 2 ^ 31 := by decide
  have hstop : (offset + count).toNat = offset.toNat + count.toNat := by
    rw [BitVec.toNat_add, Nat.mod_eq_of_lt (by omega)]
  obtain ⟨hmoved, hres⟩ := moved_inside hstop hmax
  unfold fileWrite
  rw [fSize_eq]
  refine .bind (load_ok rfl _) ?_
  rintro _ _ ⟨rfl, rfl⟩
  refine have hrest : ∀ u : Fs, u.words = s.words.grown x (offset + count) → Triple _ u _ _ := ?_
    .ite (fun hlt => .bind (fileSetSize_grow hx ?_) fun _ u hu => hrest u (hu.trans (if_pos hlt).symm)) fun hge =>
      hrest s (if_neg hge).symm
  · intro u hu
    have hsame := h.same_grown (offset + count) hx
    have hdata : u.words.Data V x := by
      intro k hk
      rw [hu, hsame.ptr x k hx (by omega)]
      exact hd k hk
    have hgrows := h.grows_grown (offset + count) hx
    have hz' : u.words.Slots x offset.toNat (offset.toNat + count.toNat) ∨ u.words.Clean V.N := by
      rw [hu]
      exact hz.imp (fun hslots k hl hu => hgrows.ready hx (hslots k hl hu)) hgrows.cleaned
    have hloop : Triple (copyBlocks true (4 * x) (offset + count) (count.toNat + 1) buf offset) u _ _ := copyBlocks_ok
      (hu.symm ▸ h.grown hx) hx hdata (by omega) (hmoved.symm ▸ hcov) (hmoved.symm ▸ hz')
      (hmoved.symm ▸ fun a hl hu' => ⟨hu.symm ▸ (hbuf a hl hu').1.grown h hx, fun hno => absurd hno (by simp)⟩) (by omega) (by omega)
    rw [hmoved, hres] at hloop
    refine .bind (hloop.imp_error fun _ _ he => he.mono fun hfull => ?_) ?_
    · rwa [hu, hsame.want hx (by omega), Words.frees_congr fun c hc => Words.free_grown hx (inBitmap_bitmapIx hc)] at hfull
    · rintro _ t ⟨rfl, hc⟩
      refine .pure ⟨?_, u, hu, hc⟩
      rw [toInt_of_lt (by omega)]
  · rw [BitVec.lt_def] at hlt
    rw [toInt_of_lt (by omega), toInt_of_lt (by omega)]
    omega

end

/-! ## A write and a read of the same range -/

/-- Bytes `lo` to `hi` of the file have been written, and nothing else has changed. -/
structure Written (V : Volume) (x buf lo hi : Nat) (s t : Fs) : Prop where
  ok : DiskOk V t.words
  data : t.words.Data V x
  size : (t.words (x + 32)).toNat = max (s.words (x + 32)).toNat hi
  mapped : ∀ k, lo / blksize ≤ k → k < lastSlot lo hi → t.words.ptr x k ≠ 0
  kept : ∀ k < ndirect + nindirect, s.words.ptr x k ≠ 0 → t.words.ptr x k = s.words.ptr x k
  fresh : ∀ k, lo / blksize ≤ k → k < lastSlot lo hi → s.words.ptr x k = 0 → s.words.free (t.words.ptr x k).toNat = true
  bits : ∀ b, InBitmap V.N (bitmapIx b) → (t.words.free b = true ↔ s.words.free b = true ∧
    ∀ k, lo / blksize ≤ k → k < lastSlot lo hi → s.words.ptr x k = 0 → b ≠ (t.words.ptr x k).toNat)
  bytes : ∀ q, lo ≤ q → q < hi → t.byteAt x q = s.mem (buf + (q - lo))
  rest : ∀ a, ¬ InBitmap V.N (a / 4) → a / 4 ≠ x + 32 →
    (∀ k, lo / blksize ≤ k → k < lastSlot lo hi → s.words.ptr x k = 0 → a / 4 ≠ s.words.slotIx x k) →
    (∀ q, lo ≤ q → q < hi → a ≠ t.words.addr x q) → t.mem a = s.mem a

theorem Copied.written {size : Word} (hc : Copied true V x lo hi buf u t) (hu : u.words = s.words.grown x size)
    (h : DiskOk V s.words) (hx : V.file x) (hcov : lastSlot lo hi ≤ V.cover x) (hslots : s.words.Slots x lo hi)
    (hbuf : BufferOk true V x s.words buf (hi - lo)) (hsize : size.toNat = hi) : Written V x buf lo hi s t := by
  have hcap := @V.cover_le x
  have hsame := h.same_grown size hx
  rw [← hu] at hsame
  have hptr : ∀ k < ndirect + nindirect, u.words.ptr x k = s.words.ptr x k := fun k => hsame.ptr x k hx
  have hmem : ∀ a, a / 4 ≠ x + 32 → u.mem a = s.mem a := fun a ha =>
    Mem.byte_of_words ((congrFun hu _).trans (s.words.grown_of_ne size ha))
  have hF := hc.filled
  have hkeep : u.words.table x = 0 → t.words.table x = 0 := by
    intro h0
    by_contra hne
    obtain ⟨hlt, hnd⟩ := (hF.tab.1 hne).resolve_left (not_not.2 h0)
    rcases hslots (lastSlot lo hi - 1) (by omega) (by omega) with hdirect | htab
    · omega
    · exact htab ((hsame.table x hx).symm.trans h0)
  have hmap : ∀ q, lo ≤ q → q < hi → q / blksize < lastSlot lo hi := by
    intro q hl hu
    rw [lastSlot, if_pos (by omega)]
    exact div_lt_blocksFor hu
  refine ⟨hF.ok, hF.data, ?_, hF.mapped, fun k hk hne => ?_, fun k hl hu' h0 => ?_, fun b hb => ?_, fun q hl hu' => ?_,
    fun a hbit h32 hslot hq => ?_⟩
  · have hword : t.words (x + 32) = u.words (x + 32) :=
      hc.attr hx hx (by omega) hcov fun hno => absurd hno (by simp)
    rw [hword, hu, s.words.grown_size, hsize]
  · rw [← hptr k hk] at hne ⊢
    exact hF.grows.ptr x k hx hk hne
  · have hne := hF.mapped k hl hu'
    have hb := (hF.ok.owned.pool (r := .block x k) ⟨hx, by omega, hne, rfl⟩).upper
    have hf := hF.fresh k (by omega) ((hptr k (by omega)).trans h0) hne
    rwa [hu, Words.free_grown hx (inBitmap_bitmapIx hb)] at hf
  · have hnew : ¬ (u.words.table x = 0 ∧ t.words.Tab x b) := fun ⟨h0, ht⟩ => ht.1 (hkeep h0)
    rw [hF.used b hb, hu, Words.free_grown hx hb, ← hu]
    refine and_congr_right fun _ => ⟨fun ⟨_, hno⟩ k hl hu' h0 => ?_, fun hno => ⟨hnew, fun k hl hu' h0 => ?_⟩⟩
    · exact hno k hl hu' ((hptr k (by omega)).trans h0)
    · exact hno k hl hu' ((hptr k (by omega)).symm.trans h0)
  · refine (hc.moved q hl hu').trans (hmem _ ?_)
    exact (hbuf (buf + (q - lo)) (by omega) (by omega)).1.record 32 (by omega)
  · refine (hc.rest a ?_ hq).trans (hmem a h32)
    rintro (hb | ⟨k, hl, hu', h0, heq⟩ | ⟨h0, hne, -⟩)
    · exact hbit hb
    · have hr := hslots k hl hu'
      refine hslot k hl hu' ((hptr k (by omega)).symm.trans h0) (heq.trans ?_)
      rw [hF.grows.slotIx hx ((Words.ready_congr (hsame.table x hx)).2 hr), Words.slotIx_congr (hsame.table x hx)]
    · exact hne (hkeep h0)

theorem lastSlot_le (h : lo ≤ hi) : lastSlot lo hi ≤ blocksFor hi := by
  unfold lastSlot blocksFor blksize
  split <;> omega

theorem div_lt_lastSlot_of_lt (hl : lo ≤ q) (hu : q < hi) : q / blksize < lastSlot lo hi := by
  rw [lastSlot, if_pos (by omega)]
  exact div_lt_blocksFor hu

theorem Words.want_le {w : Words} (hslots : w.Slots x lo hi) (hle : lo ≤ hi) :
    w.want x (lo / blksize) (lastSlot lo hi) ≤ w.holes x (lo / blksize) (blocksFor hi) := by
  have hlow : lo / blksize ≤ lastSlot lo hi := by
    unfold lastSlot blocksFor blksize
    split <;> omega
  have htab : ¬ (lo / blksize < lastSlot lo hi ∧ ¬ w.Ready x (lastSlot lo hi - 1)) := fun ⟨hlt, hr⟩ =>
    hr (hslots _ (Nat.le_sub_one_of_lt hlt) (Nat.sub_one_lt (Nat.ne_zero_of_lt hlt)))
  rw [want, if_neg htab, w.holes_split x hlow (lastSlot_le hle)]
  omega

theorem Written.byteAt_eq (hw : Written V x buf lo hi s t) (h : DiskOk V s.words) (hx : V.file x) (hd : s.words.Data V x)
    (hcov : lastSlot lo hi ≤ V.cover x) (hslots : s.words.Slots x lo hi) (hq : q / blksize < V.cover x)
    (hne : s.words.ptr x (q / blksize) ≠ 0) (hout : q < lo ∨ hi ≤ q) : t.byteAt x q = s.byteAt x q := by
  have hcap := @V.cover_le x
  have hptr := hw.kept _ (Nat.lt_of_lt_of_le hq hcap) hne
  have haddr : t.words.addr x q = s.words.addr x q := Words.addr_congr hptr
  have hplain := Plain.of_block h (x := x) (n := q / blksize) ⟨hx, hq, hne, rfl⟩ (hd _ hq hne)
  have hin := s.words.addr_inBlock x q
  change t.mem (t.words.addr x q) = s.mem (s.words.addr x q)
  rw [haddr]
  refine hw.rest _ (hplain.not_bitmap hin) (fun heq => ?_) (fun k hl hu h0 heq => ?_) fun q' hl hu heq => ?_
  · exact hplain.field_not hx (by omega) (heq ▸ hin)
  · exact hplain.slot_not hx (by omega) (hslots k hl hu) (heq ▸ hin)
  · have hq' := div_lt_lastSlot_of_lt hl hu
    have hsame := Words.addr_inj hw.ok hx hq (by omega) (hptr.symm ▸ hne) (hw.mapped _ (Nat.div_le_div_right hl) hq')
      (haddr.trans heq)
    omega

theorem write_then_read {V : Volume} {s : Fs} {x buf out : Nat} {count offset : Word} (hok : DiskOk V s.words)
    (hx : V.file x) (hd : s.words.Data V x) (hsize : (s.words (x + 32)).toNat ≤ maxfilesize)
    (hcov : blocksFor (max (s.words (x + 32)).toNat (offset.toNat + count.toNat)) ≤ V.cover x)
    (hfull : ∀ k < blocksFor (s.words (x + 32)).toNat, s.words.ptr x k ≠ 0)
    (hmax : offset.toNat + count.toNat ≤ maxfilesize)
    (htab : ndirect * blksize < offset.toNat + count.toNat → s.words.table x ≠ 0)
    (hfree : s.words.holes x (offset.toNat / blksize) (blocksFor (offset.toNat + count.toNat)) ≤ s.words.frees V.N)
    (hbuf : ∀ q < count.toNat, Quiet V x s.words ((buf + q) / 4))
    (hout : ∀ q < count.toNat, ¬ OnDisk V.N ((out + q) / 4)) :
    ∃ t, exec (fileWrite (4 * x) buf count offset) s = (.ok count.toNat, t) ∧
      Written V x buf offset.toNat (offset.toNat + count.toNat) s t ∧
      (∃ t', exec (fileRead (4 * x) out count offset) t = (.ok count.toNat, t') ∧
        ∀ q < count.toNat, t'.mem (out + q) = s.mem (buf + q)) ∧
      -- Every other byte reads as before.
      ∀ q < (s.words (x + 32)).toNat, q < offset.toNat ∨ offset.toNat + count.toNat ≤ q →
        ∀ a, ¬ OnDisk V.N (a / 4) → ∃ s' t', exec (fileRead (4 * x) a 1 (BitVec.ofNat 32 q)) s = (.ok 1, s') ∧
          exec (fileRead (4 * x) a 1 (BitVec.ofNat 32 q)) t = (.ok 1, t') ∧ t'.mem a = s'.mem a := by
  have hcap := @V.cover_le x
  have hle : offset.toNat ≤ offset.toNat + count.toNat := Nat.le_add_right ..
  have hspan : lastSlot offset.toNat (offset.toNat + count.toNat) ≤ V.cover x :=
    Nat.le_trans (Nat.le_trans (lastSlot_le hle) (blocksFor_mono (by omega))) hcov
  have hslots : s.words.Slots x offset.toNat (offset.toNat + count.toNat) := by
    intro k hl hu
    by_cases hk : k < ndirect
    · exact .inl hk
    · refine .inr (htab ?_)
      unfold lastSlot blocksFor at hu
      unfold blksize at *
      split at hu <;> omega
  have hbuf' : BufferOk true V x s.words buf count.toNat := by
    intro a hl hu
    have hq := hbuf (a - buf) (by omega)
    rw [show buf + (a - buf) = a by omega] at hq
    exact ⟨hq, fun hno => absurd hno (by simp)⟩
  have hwant := Nat.le_trans (Words.want_le hslots hle) hfree
  have hwrite := fileWrite_ok hok hx hd hsize hmax hspan (.inl hslots) hbuf'
  have hnever : Triple (fileWrite (4 * x) buf count offset) s _ (fun _ _ => False) :=
    hwrite.imp_error fun _ _ he => absurd he.2 (by omega)
  obtain ⟨r, t, hexec, rfl, u, hu, hc⟩ := hnever.returns
  have hstop : (offset + count).toNat = offset.toNat + count.toNat := by
    have hbound : maxfilesize < 2 ^ 31 := by decide
    rw [BitVec.toNat_add, Nat.mod_eq_of_lt (by omega)]
  have hw := hc.written hu hok hx hspan hslots (by rwa [Nat.add_sub_cancel_left]) hstop
  have hsize' : (t.words (x + 32)).toNat ≤ maxfilesize := by
    rw [hw.size]
    omega
  refine ⟨t, hexec, hw, ?_, fun q hq hout' a ha => ?_⟩
  · have hread := fileRead_mapped out count offset hw.ok hx hw.data hsize' (by rw [hw.size]; omega) hspan hw.mapped
      fun a hl hu => by
        have hoff := hout (a - out) (by omega)
        rwa [show out + (a - out) = a by omega] at hoff
    obtain ⟨t', hexec', hbytes⟩ := hread
    refine ⟨t', hexec', fun q hq => ?_⟩
    rw [hbytes q hq, hw.bytes _ (by omega) (by omega), Nat.add_sub_cancel_left]
  · have hslot : q / blksize < blocksFor (s.words (x + 32)).toNat := div_lt_blocksFor hq
    have hbound := blocksFor_mono (Nat.le_max_left (s.words (x + 32)).toNat (offset.toNat + count.toNat))
    have hqc : q / blksize < V.cover x := by omega
    obtain ⟨s', hs, hbyte⟩ := fileRead_byte hok hx hd hsize hq hqc (hfull _ hslot) ha
    obtain ⟨t', ht, hbyte'⟩ := fileRead_byte hw.ok hx hw.data hsize' (by rw [hw.size]; omega) hqc
      (by rw [hw.kept _ (by omega) (hfull _ hslot)]; exact hfull _ hslot) ha
    refine ⟨s', t', hs, ht, ?_⟩
    rw [hbyte, hbyte', hw.byteAt_eq hok hx hd hspan hslots hqc (hfull _ hslot) hout']

end

theorem twoBlocks_slot : twoBlocks.words.ptr rootIx 0 = 3 ∧ twoBlocks.words.ptr rootIx 1 = 4 := by
  constructor
  · rw [Words.ptr_direct (by decide), twoBlocks_words]
    decide
  · rw [Words.ptr_direct (by decide), twoBlocks_words]
    decide

/-- 5000 bytes are written from the middle of block 0 to a new block 2. -/
theorem write_then_read_two :
    ∃ t, exec (fileWrite (4 * rootIx) 0 5000 4000) twoBlocks = (.ok 5000, t) ∧
      Written rootVolume rootIx 0 4000 9000 twoBlocks t ∧
      ∃ t', exec (fileRead (4 * rootIx) 8192 5000 4000) t = (.ok 5000, t') ∧
        ∀ q < 5000, t'.mem (8192 + q) = twoBlocks.mem q := by
  obtain ⟨h0, h1⟩ := twoBlocks_slot
  have hoff : ∀ a < 2 ^ 20, ¬ OnDisk rootVolume.N (a / 4) := by
    intro a ha hon
    unfold OnDisk blockIx at hon
    omega
  have hholes : twoBlocks.words.holes rootIx 0 3 ≤ twoBlocks.words.frees rootVolume.N := by
    have hone : twoBlocks.words.holes rootIx 0 3 ≤ 1 := by
      rw [Words.holes, Finset.card_le_one_iff_subset_singleton]
      refine ⟨2, fun k hk => ?_⟩
      rw [Finset.mem_filter, Finset.mem_Ico] at hk
      obtain ⟨⟨-, hlt⟩, hz⟩ := hk
      interval_cases k
      · exact absurd (h0.symm.trans hz) (by decide)
      · exact absurd (h1.symm.trans hz) (by decide)
      · exact Finset.mem_singleton_self 2
    have hfree : 0 < twoBlocks.words.frees rootVolume.N := by
      refine Finset.card_pos.2 ⟨5, Finset.mem_filter.2 ⟨Finset.mem_range.2 (by decide), ?_⟩⟩
      rw [Words.free, twoBlocks_words]
      decide
    omega
  have hfull : ∀ k < blocksFor (5000 : Word).toNat, twoBlocks.words.ptr rootIx k ≠ 0 := by
    intro k hk
    have hlt : k < 2 := hk
    interval_cases k
    · exact fun hz => absurd (h0.symm.trans hz) (by decide)
    · exact fun hz => absurd (h1.symm.trans hz) (by decide)
  have hcount : (5000 : Word).toNat = 5000 := rfl
  have h := @write_then_read rootVolume twoBlocks rootIx 0 8192 5000 4000 twoBlocks_ok rfl twoBlocks_data
  rw [twoBlocks_size] at h
  obtain ⟨t, hexec, hw, ⟨t', hexec', hbytes⟩, -⟩ := h (by decide) (by decide) hfull (by decide) (fun hlt => absurd hlt (by decide)) hholes
    (fun q hq => .of_off twoBlocks_ok rfl (hoff _ (by omega))) fun q hq => hoff _ (by omega)
  refine ⟨t, hexec, hw, t', hexec', fun q hq => ?_⟩
  rw [hbytes q hq, Nat.zero_add]

end Jos.Fs
