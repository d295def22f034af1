import Jos.Fs.Blocks
import Jos.Fs.Requests

/-!
# Path names (`fs/fs.c`)

`walk_path` as the source has it: two cursors into the path and the buffer
`name`. It does what `walkPath` says with the path cut into its elements. In a
tree of well-formed directories nothing is changed, and the elements are looked
up one by one.
-/

namespace Jos.Fs.Path

open Lib

/-! ## The cursors -/

/-- The bytes of a string, from its first one on. -/
abbrev Text := Nat → BitVec 8

/-- `name[MAXNAMELEN]`; `top` is not part of the program, it says how far the
buffer has been written. -/
structure Buffer where
  bytes : Nat → BitVec 8
  top : Nat

def Buffer.move (b : Buffer) (path : Text) (p n : Nat) : Buffer where
  bytes i := if i < n then path (p + i) else b.bytes i
  top := max b.top n

def Buffer.set (b : Buffer) (i : Nat) (c : BitVec 8) : Buffer where
  bytes := Function.update b.bytes i c
  top := max b.top (i + 1)

def Buffer.text (b : Buffer) : Name := ((List.range maxnamelen).map b.bytes).takeWhile (· ≠ 0)

def skipSlash (path : Text) : Nat → Nat → FsM Nat
  | 0, _ => throw .spin
  | k + 1, p => if path p = slash then skipSlash path k (p + 1) else return p

/-- The loop over one element of the path. -/
def skipElem (path : Text) : Nat → Nat → FsM Nat
  | 0, _ => throw .spin
  | k + 1, p => if path p ≠ slash ∧ path p ≠ 0 then skipElem path k (p + 1) else return p

/-- What `walk_path` returns, `*pdir` and `*pf` where they are not 0, and the
string it copies to `lastelem`. -/
structure Result where
  r : Int
  dir : Option Nat
  file : Option Nat
  last : Option Name
deriving DecidableEq

/-- The main loop, with `path` at `pos`; `fuel` bounds the inner loops. -/
def walkLoop (path : Text) (fuel : Nat) : Nat → Nat → Nat → Option Nat → Buffer → FsM (Result × Buffer)
  | 0, _, _, _, _ => throw .spin
  | k + 1, pos, f, dir, name => do
    if path pos = 0 then
      return (⟨0, dir, some f, none⟩, name)
    let p := pos
    let pos ← skipElem path fuel pos
    if maxnamelen ≤ pos - p then
      return (⟨-eBadPath, none, none, none⟩, name)
    let name := (name.move path p (pos - p)).set (pos - p) 0
    let pos ← skipSlash path fuel pos
    let type ← load (fType f)
    if type ≠ ftypeDir then
      return (⟨-eNotFound, none, none, none⟩, name)
    match ← dirLookup f name.text with
    | .error r =>
      if r = -eNotFound ∧ path pos = 0 then
        return (⟨r, some f, none, some name.text⟩, name)
      else
        return (⟨r, none, none, none⟩, name)
    | .ok g => walkLoop path fuel k pos g (some f) name

/-- `stack` is what the buffer holds before. -/
def walkPath (path : Text) (stack : Nat → BitVec 8) (fuel : Nat) : FsM (Result × Buffer) := do
  let pos ← skipSlash path fuel 0
  walkLoop path fuel fuel pos sRoot none (Buffer.set ⟨stack, 0⟩ 0 0)

/-! ## Elements of a path -/

theorem elements_slash (l : Name) : elements (slash :: l) = elements l := by
  unfold elements List.splitOn
  rw [List.splitOnP_cons]
  simp

theorem elements_cons (h : c ≠ slash) (l : Name) :
    elements (c :: l) = (c :: l.takeWhile (· ≠ slash)) :: elements (l.dropWhile (· ≠ slash)) := by
  have hsplit : ∀ l : Name, ∃ rest, l.splitOn slash = l.takeWhile (· ≠ slash) :: rest ∧
      rest.filter (· ≠ []) = elements (l.dropWhile (· ≠ slash)) := by
    intro l
    induction l with
    | nil => exact ⟨[], rfl, rfl⟩
    | cons d l ih =>
      obtain ⟨rest, hrest, hfilter⟩ := ih
      unfold List.splitOn at hrest ⊢
      rw [List.splitOnP_cons]
      by_cases hd : d = slash
      · refine ⟨l.splitOnP (· == slash), ?_, ?_⟩
        · simp [hd]
        · simp only [hd, List.dropWhile_cons, ne_eq, not_true, decide_false]
          exact (elements_slash l).symm
      · refine ⟨rest, ?_, ?_⟩
        · simp [hd, hrest]
        · simp only [List.dropWhile_cons, ne_eq, hd, not_false_eq_true, decide_true, if_true]
          exact hfilter
  obtain ⟨rest, hrest, hfilter⟩ := hsplit l
  unfold elements
  unfold List.splitOn at hrest ⊢
  rw [List.splitOnP_cons]
  simp only [beq_iff_eq, h, if_false, hrest, List.modifyHead_cons]
  rw [List.filter_cons_of_pos (by simp), hfilter]
  rfl

theorem elements_dropWhile (l : Name) : elements (l.dropWhile (· = slash)) = elements l := by
  induction l with
  | nil => rfl
  | cons c l ih =>
    by_cases hc : c = slash
    · simp only [List.dropWhile_cons, hc, decide_true, if_true]
      rw [ih, elements_slash]
    · simp [List.dropWhile_cons, hc]

theorem mem_of_mem_elements (h : name ∈ elements l) (hc : c ∈ name) : c ∈ l := by
  have hsplit : ∀ name ∈ l.splitOn slash, name ⊆ l := by
    clear h
    unfold List.splitOn
    induction l with
    | nil => simp
    | cons d l ih =>
      rw [List.splitOnP_cons]
      intro name h
      split at h
      · rcases List.mem_cons.1 h with rfl | h
        · exact List.nil_subset _
        · exact List.Subset.trans (ih name h) (List.subset_cons_self ..)
      · cases hl : l.splitOnP (· == slash) with
        | nil => simp [hl] at h
        | cons first rest =>
          rw [hl, List.modifyHead_cons] at h
          rcases List.mem_cons.1 h with rfl | h
          · exact List.cons_subset_cons d (ih first (by simp [hl]))
          · exact List.Subset.trans (ih name (by simp [hl, h])) (List.subset_cons_self ..)
  exact hsplit name (List.mem_of_mem_filter h) hc

def TextAt (path : Text) : Nat → Name → Prop
  | p, [] => path p = 0
  | p, c :: l => path p = c ∧ c ≠ 0 ∧ TextAt path (p + 1) l

section

variable {path : Text}

section
variable (h : TextAt path p l)
include h

theorem skipSlash_eq (hk : l.length < k) :
    ∃ q, skipSlash path k p = pure q ∧ TextAt path q (l.dropWhile (· = slash)) := by
  induction k generalizing p l with
  | zero => omega
  | succ k ih =>
    unfold skipSlash
    cases l with
    | nil =>
      have hne : path p ≠ slash := by
        rw [show path p = 0 from h]
        decide
      exact ⟨p, if_neg hne, h⟩
    | cons c l =>
      obtain ⟨hc, h0, hl⟩ := h
      rw [List.length_cons] at hk
      by_cases hs : c = slash
      · rw [if_pos (hc.trans hs), List.dropWhile_cons_of_pos (by simpa using hs)]
        exact ih hl (by omega)
      · rw [if_neg (hc ▸ hs), List.dropWhile_cons_of_neg (by simpa using hs)]
        exact ⟨p, rfl, hc, h0, hl⟩

theorem skipElem_eq (hk : l.length < k) : skipElem path k p = pure (p + (l.takeWhile (· ≠ slash)).length) ∧
      TextAt path (p + (l.takeWhile (· ≠ slash)).length) (l.dropWhile (· ≠ slash)) := by
  induction k generalizing p l with
  | zero => omega
  | succ k ih =>
    unfold skipElem
    cases l with
    | nil => exact ⟨if_neg fun hne => hne.2 h, h⟩
    | cons c l =>
      obtain ⟨hc, h0, hl⟩ := h
      rw [List.length_cons] at hk
      by_cases hs : c = slash
      · rw [if_neg fun hne => hne.1 (hc.trans hs), List.dropWhile_cons_of_neg (by simpa using hs),
          List.takeWhile_cons_of_neg (by simpa using hs)]
        exact ⟨rfl, hc, h0, hl⟩
      · rw [if_pos ⟨hc ▸ hs, hc ▸ h0⟩, List.dropWhile_cons_of_pos (by simpa using hs),
          List.takeWhile_cons_of_pos (by simpa using hs), List.length_cons, ← Nat.add_assoc, Nat.add_right_comm]
        exact ih hl (by omega)

theorem TextAt.bytes (hn : n ≤ l.length) : (List.range n).map (fun i => path (p + i)) = l.take n := by
  induction l generalizing p n with
  | nil =>
    obtain rfl : n = 0 := by simpa using hn
    rfl
  | cons c l ih =>
    cases n with
    | zero => rfl
    | succ n =>
      obtain ⟨hc, -, hl⟩ := h
      rw [List.range_succ_eq_map, List.map_cons, List.map_map, List.take_succ_cons, ← ih hl (by simpa using hn)]
      refine congrArg₂ _ hc (List.map_congr_left fun i _ => ?_)
      exact congrArg path (show p + (i + 1) = p + 1 + i by omega)

theorem TextAt.nonzero : ∀ c ∈ l, c ≠ 0 := by
  induction l generalizing p with
  | nil => exact fun _ hc => nomatch hc
  | cons c l ih =>
    obtain ⟨-, h0, hl⟩ := h
    intro d hd
    rcases List.mem_cons.1 hd with rfl | hd
    · exact h0
    · exact ih hl d hd

end

end

theorem Buffer.text_move (b : Buffer) (hbytes : (List.range n).map (fun i => path (p + i)) = l) (h0 : ∀ c ∈ l, c ≠ 0)
    (hn : n < maxnamelen) : ((b.move path p n).set n 0).text = l := by
  obtain ⟨m, hm⟩ : ∃ m, maxnamelen = n + (m + 1) := ⟨maxnamelen - n - 1, by omega⟩
  have hfirst : (List.range n).map ((b.move path p n).set n 0).bytes = l := by
    rw [← hbytes]
    refine List.map_congr_left fun i hi => ?_
    have hlt := List.mem_range.1 hi
    simp [Buffer.set, Buffer.move, Function.update_of_ne (Nat.ne_of_lt hlt), hlt]
  unfold Buffer.text
  rw [hm, List.range_add, List.map_append, hfirst, List.takeWhile_append_of_pos (by simpa using h0),
    List.range_succ_eq_map]
  simp [Buffer.set]

theorem elements_eq_nil (hs : l.head? ≠ some slash) : elements l = [] ↔ l = [] := by
  cases l with
  | nil => exact ⟨fun _ => rfl, fun _ => rfl⟩
  | cons c l =>
    rw [elements_cons fun hc => hs (by rw [hc]; rfl)]
    simp

theorem TextAt.eq_nil {path : Text} (h : TextAt path p l) : path p = 0 ↔ l = [] := by
  cases l with
  | nil => exact ⟨fun _ => rfl, fun _ => h⟩
  | cons c l => exact ⟨fun h0 => absurd (h.1.symm.trans h0) h.2.1, nofun⟩

theorem head?_dropWhile_slash (l : Name) : (l.dropWhile (· = slash)).head? ≠ some slash := by
  intro h
  have hnot := List.head?_dropWhile_not (fun c => decide (c = slash)) l
  rw [h] at hnot
  simp at hnot

/-! ## The loop over the elements -/

/-- `lastelem` is written where a directory is returned without a file. -/
def result (w : Walk) : Result :=
  ⟨w.r, w.dir, w.file, if w.r = 0 then none else w.dir.map fun _ => w.last⟩

def beside (b : Buffer) : Except Panic Walk × Fs → Except Panic (Result × Buffer) × Fs
  | (.ok w, t) => (.ok (result w, b), t)
  | (.error e, t) => (.error e, t)

/-- The cursors walk the elements one by one, whatever is in the directories. -/
theorem walkLoop_eq {path : Text} (h : TextAt path p l) (hs : l.head? ≠ some slash) (hk : l.length < k)
    (hfuel : l.length < fuel) (hb : b.top ≤ maxnamelen) (f : Nat) (dir : Option Nat) (s : Fs) :
    ∃ b', b'.top ≤ maxnamelen ∧ exec (walkLoop path fuel k p f dir b) s =
      beside b' (exec (walkFrom f dir (elements l)) s) := by
  induction k generalizing p l f dir b s with
  | zero => omega
  | succ k ih =>
    unfold walkLoop
    cases l with
    | nil =>
      have h0 : path p = 0 := h
      rw [if_pos h0]
      exact ⟨b, hb, rfl⟩
    | cons c l =>
      have hc : c ≠ slash := fun hc => hs (by rw [hc]; rfl)
      have hnz : path p ≠ 0 := h.1 ▸ h.2.1
      obtain ⟨heq, hrest⟩ := skipElem_eq h hfuel
      rw [if_neg hnz, elements_cons hc, heq, pure_bind]
      -- The element, and what follows the slashes after it.
      have htake : (c :: l).takeWhile (· ≠ slash) = c :: l.takeWhile (· ≠ slash) :=
        List.takeWhile_cons_of_pos (by simpa using hc)
      have hdrop : (c :: l).dropWhile (· ≠ slash) = l.dropWhile (· ≠ slash) :=
        List.dropWhile_cons_of_pos (by simpa using hc)
      have hpre : c :: l.takeWhile (· ≠ slash) <+: c :: l := htake ▸ List.takeWhile_prefix _
      have hsuf : (l.dropWhile (· ≠ slash)).length ≤ l.length := (List.dropWhile_suffix _).length_le
      rw [htake, hdrop] at hrest
      rw [htake]
      generalize c :: l.takeWhile (· ≠ slash) = name at *
      generalize l.dropWhile (· ≠ slash) = tail at *
      rw [List.length_cons] at hk hfuel
      have hbytes : (List.range name.length).map (fun i => path (p + i)) = name := by
        rw [h.bytes hpre.length_le, ← List.prefix_iff_eq_take.1 hpre]
      rw [Nat.add_sub_cancel_left, walkFrom]
      by_cases hlen : maxnamelen ≤ name.length
      · rw [if_pos hlen, if_pos hlen]
        exact ⟨b, hb, rfl⟩
      rw [if_neg hlen, if_neg hlen]
      have htext := b.text_move hbytes (fun d hd => h.nonzero d (hpre.subset hd)) (Nat.not_le.1 hlen)
      have htop : ((b.move path p name.length).set name.length 0).top ≤ maxnamelen := by
        simp only [Buffer.set, Buffer.move]
        omega
      generalize (b.move path p name.length).set name.length 0 = b' at *
      obtain ⟨q, hskip, hq⟩ := skipSlash_eq hrest (Nat.lt_of_le_of_lt hsuf (by omega : l.length < fuel))
      have hend : path q = 0 ↔ elements tail = [] := by
        rw [← elements_dropWhile, elements_eq_nil (head?_dropWhile_slash tail)]
        exact hq.eq_nil
      dsimp only
      rw [hskip, pure_bind]
      have hload : exec (load (fType f)) s = (.ok (s.mem.read32 (fType f)), s) := rfl
      rw [exec_bind_ok hload, exec_bind_ok hload]
      by_cases hd : s.mem.read32 (fType f) ≠ ftypeDir
      · rw [if_pos hd, if_pos hd]
        exact ⟨b', htop, rfl⟩
      rw [if_neg hd, if_neg hd, htext]
      cases hlook : exec (dirLookup f name) s with
      | mk r t =>
      cases r with
      | error e =>
        rw [exec_bind_error hlook, exec_bind_error hlook]
        exact ⟨b', htop, rfl⟩
      | ok r =>
        rw [exec_bind_ok hlook, exec_bind_ok hlook]
        cases r with
        | error r =>
          simp only [hend]
          by_cases hr : r = -eNotFound ∧ elements tail = []
          · rw [if_pos hr, if_pos hr]
            obtain ⟨rfl, -⟩ := hr
            exact ⟨b', htop, rfl⟩
          · rw [if_neg hr, if_neg hr]
            refine ⟨b', htop, ?_⟩
            simp [beside, result]
        | ok g =>
          dsimp only
          rw [← elements_dropWhile]
          have hle : (tail.dropWhile (· = slash)).length ≤ tail.length := (List.dropWhile_suffix _).length_le
          exact ih hq (head?_dropWhile_slash tail) (by omega) (by omega) htop g (some f) t

/-! ## Well-formed directories -/

def entries (m : Mem) (dir : Nat) : List Nat :=
  (List.range ((m.read32 (fSize dir)).toNat / blksize)).flatMap fun i =>
    (List.range blkfiles).map fun j => blockAddr (pointer m dir i) + sizeofFile * j

def lookup (m : Mem) (dir : Nat) (name : Name) : Option Nat := (entries m dir).find? fun f => strEq m f name

/-- Whole blocks, all of them there, with names that end within their field. -/
structure DirOk (m : Mem) (dir : Nat) : Prop where
  whole : (m.read32 (fSize dir)).toNat % blksize = 0
  bound : (m.read32 (fSize dir)).toNat ≤ maxfilesize
  table : ndirect < (m.read32 (fSize dir)).toNat / blksize →
    m.read32 (fIndirect dir) ≠ 0 ∧ m.read32 (fIndirect dir) < m.read32 sNblocks
  blocks : ∀ i < (m.read32 (fSize dir)).toNat / blksize, pointer m dir i ≠ 0 ∧ pointer m dir i < m.read32 sNblocks
  names : ∀ f ∈ entries m dir, ∃ i < maxnamelen, m (f + i) = 0

/-- The files of the tree. -/
inductive InTree (m : Mem) : Nat → Prop
  | root : InTree m sRoot
  | entry : InTree m dir → m.read32 (fType dir) = ftypeDir → f ∈ entries m dir → InTree m f

def WellFormed (m : Mem) : Prop := ∀ dir, InTree m dir → m.read32 (fType dir) = ftypeDir → DirOk m dir

section

variable {s : Fs} {E : Panic → Fs → Prop}

theorem fileGetBlock_there {n : Word} (hn : n.toNat < ndirect + nindirect)
    (ht : ndirect ≤ n.toNat → s.mem.read32 (fIndirect f) ≠ 0 ∧ s.mem.read32 (fIndirect f) < s.mem.read32 sNblocks)
    (hb : pointer s.mem f n.toNat ≠ 0 ∧ pointer s.mem f n.toNat < s.mem.read32 sNblocks) :
    Triple (fileGetBlock f n) s (fun r t => s = t ∧ r = .ok (blockAddr (pointer s.mem f n.toNat))) E := by
  unfold fileGetBlock
  refine .ite (fun hge => by omega) fun _ => ?_
  have hslot : Triple (fileBlockWalk f n true) s
      (fun r t => s = t ∧ ∃ slot, r = .ok slot ∧ s.mem.read32 slot = pointer s.mem f n.toNat) E := by
    unfold fileBlockWalk
    refine .ite (fun hge => by omega) fun _ => .ite (fun hd => .pure ⟨rfl, _, rfl, ?_⟩) fun hd => ?_
    · rw [pointer, if_pos hd]
    · obtain ⟨h0, hlt⟩ := ht (by omega)
      refine .bind (load_read32 _ s) ?_
      rintro _ _ ⟨rfl, rfl⟩
      refine .ite (fun _ => ?_) fun hz => absurd h0 hz
      refine .bind (diskaddr_mapped h0 hlt) ?_
      rintro _ _ ⟨rfl, rfl⟩
      refine .pure ⟨rfl, _, rfl, ?_⟩
      rw [pointer, if_neg hd, if_neg h0]
  refine .bind hslot ?_
  rintro _ _ ⟨rfl, slot, rfl, hptr⟩
  refine .bind (load_read32 _ s) ?_
  rintro _ _ ⟨rfl, rfl⟩
  rw [hptr]
  refine .ite (fun _ => ?_) fun hz => absurd hb.1 hz
  refine .bind (diskaddr_mapped hb.1 hb.2) ?_
  rintro _ _ ⟨rfl, rfl⟩
  exact .pure ⟨rfl, rfl⟩

section
variable (h : DirOk s.mem dir)
include h

theorem DirOk.getBlock (hi : i < (s.mem.read32 (fSize dir)).toNat / blksize) :
    Triple (fileGetBlock dir (BitVec.ofNat 32 i)) s
      (fun r t => s = t ∧ r = .ok (blockAddr (pointer s.mem dir i))) E := by
  have hbound := h.bound
  unfold maxfilesize at hbound
  have hlt : i < ndirect + nindirect := by
    unfold blksize at *
    omega
  have hnum : (BitVec.ofNat 32 i).toNat = i := by
    rw [BitVec.toNat_ofNat]
    unfold ndirect nindirect at hlt
    omega
  have hget := fileGetBlock_there (s := s) (f := dir) (E := E) (n := BitVec.ofNat 32 i)
  rw [hnum] at hget
  exact hget hlt (fun hge => h.table (by omega)) (h.blocks i hi)

/-- The scan from block `i` on finds the first entry that passes the test. -/
theorem DirOk.scan (test : Mem → Nat → Bool) (hk : i + k = (s.mem.read32 (fSize dir)).toNat / blksize) :
    Triple (dirScan dir test k i) s (fun r t => s = t ∧ r = .ok (((List.range' i k).flatMap fun i =>
      (List.range blkfiles).map fun j => blockAddr (pointer s.mem dir i) + sizeofFile * j).find? (test s.mem))) E := by
  induction k generalizing i with
  | zero => exact .pure ⟨rfl, rfl⟩
  | succ k ih =>
    unfold dirScan
    refine .bind (h.getBlock (by omega)) ?_
    rintro _ _ ⟨rfl, rfl⟩
    refine .get_bind ?_
    rw [List.range'_succ, List.flatMap_cons, List.find?_append, List.find?_map]
    cases hfind : (List.range blkfiles).find?
      ((test s.mem) ∘ fun j => blockAddr (pointer s.mem dir i) + sizeofFile * j) with
    | some j =>
      have hfind' : (List.range blkfiles).find?
          (fun j => test s.mem (blockAddr (pointer s.mem dir i) + sizeofFile * j)) = some j := hfind
      dsimp only
      rw [hfind']
      exact .pure ⟨rfl, rfl⟩
    | none =>
      have hfind' : (List.range blkfiles).find?
          (fun j => test s.mem (blockAddr (pointer s.mem dir i) + sizeofFile * j)) = none := hfind
      dsimp only
      rw [hfind']
      exact ih (by omega)

theorem DirOk.blocks_ok :
    Triple (dirBlocks dir) s (fun r t => s = t ∧ r = (s.mem.read32 (fSize dir)).toNat / blksize) E := by
  have hbound := h.bound
  have hwhole := h.whole
  unfold maxfilesize ndirect nindirect blksize at hbound
  unfold blksize at hwhole
  unfold dirBlocks
  refine .bind (load_read32 _ s) ?_
  rintro _ _ ⟨rfl, rfl⟩
  have hrem : (s.mem.read32 (fSize dir)).srem 4096#32 = 0 := by
    apply BitVec.eq_of_toNat_eq
    rw [toNat_srem_of_lt (by omega)]
    exact hwhole
  refine .guard (fun hne => absurd hrem hne) fun _ => .pure ⟨rfl, ?_⟩
  rw [toNat_sdiv_of_lt (by omega)]
  rfl

theorem DirOk.lookup_ok (name : Name) : Triple (dirLookup dir name) s
    (fun r t => s = t ∧ r = (lookup s.mem dir name).elim (.error (-eNotFound)) .ok) E := by
  unfold dirLookup
  refine .bind h.blocks_ok ?_
  rintro _ _ ⟨rfl, rfl⟩
  refine .bind (h.scan (fun m a => strEq m a name) (Nat.zero_add _)) ?_
  rintro _ _ ⟨rfl, rfl⟩
  generalize hr : List.find? _ _ = r
  have hlook : lookup s.mem dir name = r := by
    rw [← hr, ← List.range_eq_range']
    rfl
  rw [hlook]
  cases r with
  | none => exact .pure ⟨rfl, rfl⟩
  | some g => exact .pure ⟨rfl, rfl⟩

end

end

/-! ## Elements looked up one by one -/

/-- How far the elements lead from `f`, which is in `dir`: the file reached, its
directory, and the elements that are left. -/
def follow (m : Mem) (f : Nat) (dir : Option Nat) : List Name → Nat × Option Nat × List Name
  | [] => (f, dir, [])
  | name :: rest =>
    if m.read32 (fType f) = ftypeDir then
      match lookup m f name with
      | some g => follow m g (some f) rest
      | none => (f, dir, name :: rest)
    else (f, dir, name :: rest)

/-- What the elements resolve to from `f`, which is in `dir`. -/
def resolveFrom (m : Mem) (f : Nat) (dir : Option Nat) (path : List Name) : Result :=
  match follow m f dir path with
  | (f, dir, []) => ⟨0, dir, some f, none⟩
  | (f, _, name :: rest) =>
    if maxnamelen ≤ name.length then ⟨-eBadPath, none, none, none⟩
    else if m.read32 (fType f) = ftypeDir ∧ rest = [] then ⟨-eNotFound, some f, none, some name⟩
    else ⟨-eNotFound, none, none, none⟩

def resolve (m : Mem) (path : List Name) : Result := resolveFrom m sRoot none path

section

variable {m : Mem}

theorem resolveFrom_found (hd : m.read32 (fType f) = ftypeDir) (hl : lookup m f name = some g) :
    resolveFrom m f dir (name :: rest) = resolveFrom m g (some f) rest := by
  simp [resolveFrom, follow, hd, hl]

theorem resolveFrom_stuck (h : m.read32 (fType f) = ftypeDir → lookup m f name = none) :
    resolveFrom m f dir (name :: rest) =
      if maxnamelen ≤ name.length then ⟨-eBadPath, none, none, none⟩
      else if m.read32 (fType f) = ftypeDir ∧ rest = [] then ⟨-eNotFound, some f, none, some name⟩
      else ⟨-eNotFound, none, none, none⟩ := by
  by_cases hd : m.read32 (fType f) = ftypeDir
  · simp [resolveFrom, follow, hd, h hd]
  · simp [resolveFrom, follow, hd]

theorem DirOk.lookup_long (h : DirOk m dir) (h0 : ∀ c ∈ name, c ≠ 0) (hlen : maxnamelen ≤ name.length) :
    lookup m dir name = none := by
  refine List.find?_eq_none.2 fun f hf heq => ?_
  obtain ⟨i, hi, hz⟩ := h.names f hf
  unfold strEq at heq
  have hall := List.all_eq_true.1 (Bool.and_eq_true_iff.1 heq).1 i (List.mem_range.2 (by omega))
  have hbyte : m (f + i) = name.getD i 0 := by simpa using hall
  rw [hz, List.getD_eq_getElem _ _ (by omega)] at hbyte
  exact h0 _ (List.getElem_mem ..) hbyte.symm

end

section

variable {s : Fs} {E : Panic → Fs → Prop}

/-- In a tree of well-formed directories the loop looks the elements up. -/
theorem walkFrom_ok (hwf : WellFormed s.mem) (hf : InTree s.mem f) (h0 : ∀ name ∈ path, ∀ c ∈ name, c ≠ 0) :
    Triple (walkFrom f dir path) s (fun w t => s = t ∧ result w = resolveFrom s.mem f dir path) E := by
  induction path generalizing f dir with
  | nil => exact .pure ⟨rfl, rfl⟩
  | cons name rest ih =>
    unfold walkFrom
    have hname := h0 name List.mem_cons_self
    refine .ite (fun hlen => .pure ⟨rfl, ?_⟩) fun hlen => ?_
    · rw [resolveFrom_stuck fun hd => (hwf f hf hd).lookup_long hname hlen, if_pos hlen]
      rfl
    refine .bind (load_read32 _ s) ?_
    rintro _ _ ⟨rfl, rfl⟩
    refine .ite (fun hd => .pure ⟨rfl, ?_⟩) fun hd => ?_
    · rw [resolveFrom_stuck fun hd' => absurd hd' hd, if_neg hlen, if_neg fun h => hd h.1]
      rfl
    have hd : s.mem.read32 (fType f) = ftypeDir := by simpa using hd
    refine .bind ((hwf f hf hd).lookup_ok name) ?_
    rintro _ _ ⟨rfl, rfl⟩
    cases hlook : lookup s.mem f name with
    | none =>
      rw [resolveFrom_stuck fun _ => hlook, if_neg hlen]
      refine .ite (fun hr => .pure ⟨rfl, ?_⟩) fun hr => .pure ⟨rfl, ?_⟩
      · rw [if_pos ⟨hd, hr.2⟩]
        rfl
      · rw [if_neg fun h => hr ⟨rfl, h.2⟩]
        rfl
    | some g =>
      rw [resolveFrom_found hd hlook]
      exact ih (.entry hf hd (List.mem_of_find?_eq_some hlook)) fun n hn => h0 n (List.mem_cons_of_mem _ hn)

/-- Path resolution is component-wise lookup, and `name` is not overrun. -/
theorem walk_path_resolves {path : Text} (hpath : TextAt path 0 l) (hfuel : l.length < fuel) (hwf : WellFormed s.mem)
    (stack : Nat → BitVec 8) : ∃ b, exec (walkPath path stack fuel) s = (.ok (resolve s.mem (elements l), b), s) ∧
      b.top ≤ maxnamelen := by
  obtain ⟨q, hskip, hq⟩ := skipSlash_eq hpath hfuel
  have hle : (l.dropWhile (· = slash)).length ≤ l.length := (List.dropWhile_suffix _).length_le
  have htop : (Buffer.set ⟨stack, 0⟩ 0 0).top ≤ maxnamelen := Nat.le_of_lt_succ (by decide : 1 < 129)
  obtain ⟨b, hb, heq⟩ := walkLoop_eq hq (head?_dropWhile_slash l) (Nat.lt_of_le_of_lt hle hfuel)
    (Nat.lt_of_le_of_lt hle hfuel) htop sRoot none s
  have h0 : ∀ name ∈ elements l, ∀ c ∈ name, c ≠ 0 := fun _ hn c hc => hpath.nonzero c (mem_of_mem_elements hn hc)
  have hok : Triple (walkFrom sRoot none (elements l)) s _ fun _ _ => False := walkFrom_ok hwf .root h0
  obtain ⟨w, _, hexec, rfl, hw⟩ := hok.returns
  refine ⟨b, ?_, hb⟩
  unfold walkPath
  rw [hskip, pure_bind, heq, elements_dropWhile, hexec, resolve, ← hw]
  rfl

end

/-- The root has one entry, an empty directory `a` in block 3. -/
def oneEntry : Fs where
  mem := .ofWords fun i =>
    if i = 0x4000401 then 8 else if i = 0x4000422 then 4096 else if i = 0x4000423 then ftypeDir
    else if i = 0x4000424 then 3 else if i = 0x4000C00 then 0x61 else if i = 0x4000C21 then ftypeDir else 0
  moves := []
  opentab _ := ⟨0, 0, 0, 0⟩

theorem oneEntry_wellFormed : WellFormed oneEntry.mem := by
  have hroot : entries oneEntry.mem sRoot = (List.range 16).map fun j => 0x10003000 + 256 * j := by
    decide +kernel
  have hdir : ∀ f ∈ (List.range 16).map (0x10003000 + 256 * ·), oneEntry.mem.read32 (fType f) = ftypeDir →
      f = 0x10003000 := by
    decide +kernel
  have hempty : entries oneEntry.mem 0x10003000 = [] := by decide +kernel
  have htree : ∀ f, InTree oneEntry.mem f → f = sRoot ∨ f ∈ entries oneEntry.mem sRoot := by
    intro f hf
    induction hf with
    | root => exact .inl rfl
    | entry _ htype hf ih =>
      rcases ih with rfl | ih
      · exact .inr hf
      · rw [hdir _ (hroot ▸ ih) htype] at hf
        exact absurd hf (hempty ▸ List.not_mem_nil)
  intro dir hin htype
  rcases htree dir hin with rfl | h
  · exact ⟨by decide +kernel, by decide +kernel, by decide +kernel, by decide +kernel, by decide +kernel⟩
  · rw [hdir _ (hroot ▸ h) htype]
    exact ⟨by decide +kernel, by decide +kernel, by decide +kernel, by decide +kernel, by decide +kernel⟩

/-- The path `//a/b/`. -/
def missingLast : Name := [0x2f, 0x2f, 0x61, 0x2f, 0x62, 0x2f]

theorem walk_path_resolves_missing_last : ∃ b,
    exec (walkPath (fun i => missingLast.getD i 0) (fun _ => 0xff) 7) oneEntry =
      (.ok (⟨-eNotFound, some 0x10003000, none, some [0x62]⟩, b), oneEntry) ∧ b.top ≤ maxnamelen := by
  have hpath : TextAt (fun i => missingLast.getD i 0) 0 missingLast := by
    simp [missingLast, TextAt]
  have hresolve : resolve oneEntry.mem (elements missingLast) =
      ⟨-eNotFound, some 0x10003000, none, some [0x62]⟩ := by
    decide +kernel
  rw [← hresolve]
  exact walk_path_resolves hpath (by decide) oneEntry_wellFormed fun _ => 0xff

end Jos.Fs.Path
