import Jos.Fs.Serve
import Jos.Lib.Ownership

/-!
# Who holds which block

The server's memory is read here as aligned words. A `Volume` says how large
the disk is, where the `struct File`s are that are looked after, and in which
blocks; each of these files holds its indirect block and the blocks its
pointers name. `DiskOk` says that what they hold is in use, not reserved, and
held once. The lemmas say which words of the disk are different words.
-/

namespace Jos.Fs

open Lib

abbrev Words := Nat → Word

abbrev Fs.words (s : Fs) : Words := s.mem.words

/-! ## Files and their pointers -/

def blockIx (b : Nat) : Nat := 0x4000000 + 1024 * b

def nblocksIx : Nat := blockIx 1 + 1
def rootIx : Nat := blockIx 1 + 2
def bitmapIx (b : Nat) : Nat := blockIx 2 + b / 32

def InBlock (b i : Nat) : Prop := blockIx b ≤ i ∧ i < blockIx b + 1024

namespace Words

def free (w : Words) (b : Nat) : Bool := (w (bitmapIx b)).getLsbD (b % 32)

def table (w : Words) (x : Nat) : Word := w (x + 44)

/-- The word that holds the pointer for block `n` of the file at word `x`. -/
def slotIx (w : Words) (x n : Nat) : Nat :=
  if n < ndirect then x + 34 + n else blockIx (w.table x).toNat + (n - ndirect)

def Ready (w : Words) (x n : Nat) : Prop := n < ndirect ∨ w.table x ≠ 0

instance : Decidable (Ready w x n) := inferInstanceAs (Decidable (_ ∨ _))

def ptr (w : Words) (x n : Nat) : Word := if w.Ready x n then w (w.slotIx x n) else 0

def Zero (w : Words) (b : Nat) : Prop := ∀ i, InBlock b i → w i = 0

end Words

/-- Block 0, the super block and the bitmap come first. -/
def reserved (N : Nat) : Nat := 2 + (N + (blkbitsize - 1)) / blkbitsize

def InBitmap (N i : Nat) : Prop := blockIx 2 ≤ i ∧ i < blockIx (reserved N)

def OnDisk (N i : Nat) : Prop := blockIx 0 ≤ i ∧ i < blockIx N

/-- `file` are the files' first words, `home` the blocks that they are in, and
`cover` how many pointers of a file are looked after. -/
structure Volume where
  N : Nat
  fits : N * blksize ≤ disksize
  room : reserved N ≤ N
  file : Nat → Prop
  home : Nat → Prop
  cover : Nat → Nat
  homeRange : home h → h = 1 ∨ (reserved N ≤ h ∧ h < N)
  inHome : file x → ∃ h k, home h ∧ x = blockIx h + k ∧ k + 64 ≤ 1024 ∧ (h = 1 → 2 ≤ k)
  apart : file x → file y → x ≠ y → x + 64 ≤ y ∨ y + 64 ≤ x
  cover_le : cover x ≤ ndirect + nindirect

/-- What holds a block: the pointer for block `n` of a file, or its `f_indirect`. -/
inductive Holder where
  | block (x n : Nat)
  | table (x : Nat)
deriving DecidableEq

def Holds (V : Volume) (w : Words) : Holder → Nat → Prop
  | .block x n, b => V.file x ∧ n < V.cover x ∧ w.ptr x n ≠ 0 ∧ (w.ptr x n).toNat = b
  | .table x, b => V.file x ∧ w.table x ≠ 0 ∧ (w.table x).toNat = b

/-- The blocks a file may hold. -/
structure Pool (N : Nat) (w : Words) (b : Nat) : Prop where
  lower : reserved N ≤ b
  upper : b < N
  inUse : w.free b = false

structure DiskOk (V : Volume) (w : Words) : Prop where
  nblocks : (w nblocksIx).toNat = V.N
  reserved : ∀ b < reserved V.N, w.free b = false
  homes : ∀ b, V.home b → w.free b = false
  tables : ∀ x, V.file x → w.table x ≠ 0 → ¬ V.home (w.table x).toNat
  owned : Owned (Pool V.N w) (Holds V w)

/-! ## Where things are -/

theorem InBlock.unique (h : InBlock b i) (h' : InBlock c i) : b = c := by
  unfold InBlock blockIx at *
  omega

theorem InBlock.mk (hk : k < 1024) : InBlock b (blockIx b + k) := by
  unfold InBlock
  omega

theorem two_lt_reserved (hb : b < N) : 2 < reserved N := by
  unfold reserved blkbitsize
  omega

theorem inBitmap_bitmapIx (hb : b < N) : InBitmap N (bitmapIx b) := by
  unfold InBitmap bitmapIx blockIx reserved blkbitsize
  omega

theorem InBlock.not_bitmap (h : InBlock b i) (hb : reserved N ≤ b) : ¬ InBitmap N i := by
  unfold InBlock InBitmap blockIx at *
  omega

theorem InBlock.ne_nblocks (h : InBlock b i) (hb : b ≠ 1) : i ≠ nblocksIx := by
  unfold InBlock nblocksIx blockIx at *
  omega

theorem InBitmap.ne_nblocks (h : InBitmap N i) : i ≠ nblocksIx := by
  unfold InBitmap nblocksIx blockIx at *
  omega

theorem InBlock.onDisk (h : InBlock b i) (hb : b < N) : OnDisk N i := by
  unfold InBlock OnDisk blockIx at *
  omega

theorem InBitmap.onDisk (h : InBitmap N i) (hroom : reserved N ≤ N) : OnDisk N i := by
  unfold InBitmap OnDisk blockIx at *
  omega

namespace Volume

variable {V : Volume} {x y k c b : Nat}

theorem pos (V : Volume) : 2 < V.N := by
  have hroom := V.room
  unfold Fs.reserved blkbitsize at hroom
  omega

theorem home_lt (hb : V.home b) : b < V.N := by
  have hpos := V.pos
  rcases V.homeRange hb with rfl | hb
  · omega
  · exact hb.2

theorem field_inBlock (hx : V.file x) (hk : k < 64) :
    ∃ b, V.home b ∧ InBlock b (x + k) ∧ (b = 1 → nblocksIx < x + k) := by
  obtain ⟨b, off, hb, rfl, hoff, h1⟩ := V.inHome hx
  refine ⟨b, hb, ?_, fun hb1 => ?_⟩
  · unfold InBlock
    omega
  · have hlow := h1 hb1
    subst hb1
    unfold nblocksIx
    omega

theorem field_ne (hx : V.file x) (hy : V.file y) (hk : k < 64) (hc : c < 64) (hne : x ≠ y ∨ k ≠ c) :
    x + k ≠ y + c := by
  by_cases hxy : x = y
  · subst hxy
    have hkc := hne.resolve_left (· rfl)
    omega
  · have hap := V.apart hx hy hxy
    omega

section
variable (hx : V.file x) (hk : k < 64)
include hx hk

theorem field_not_inBlock (hb : ¬ V.home b) : ¬ InBlock b (x + k) := by
  obtain ⟨h, hh, hin, -⟩ := field_inBlock hx hk
  intro hib
  exact hb (hin.unique hib ▸ hh)

theorem field_not_bitmap : ¬ InBitmap V.N (x + k) := by
  obtain ⟨h, hh, hin, -⟩ := field_inBlock hx hk
  rcases V.homeRange hh with rfl | hh
  · unfold InBlock InBitmap blockIx at *
    omega
  · exact hin.not_bitmap hh.1

theorem field_ne_nblocks : x + k ≠ nblocksIx := by
  obtain ⟨h, hh, hin, h1⟩ := field_inBlock hx hk
  by_cases h1' : h = 1
  · have hlt := h1 h1'
    omega
  · exact hin.ne_nblocks h1'

theorem field_onDisk : OnDisk V.N (x + k) := by
  obtain ⟨h, hh, hin, -⟩ := field_inBlock hx hk
  exact hin.onDisk (home_lt hh)

end

end Volume

namespace DiskOk

variable {V : Volume} {w w' : Words} {x y n k c b : Nat} {r : Holder}

theorem tableHeld (hx : V.file x) (ht : w.table x ≠ 0) : Holds V w (.table x) (w.table x).toNat :=
  ⟨hx, ht, rfl⟩

theorem tablePool (h : DiskOk V w) (hx : V.file x) (ht : w.table x ≠ 0) : Pool V.N w (w.table x).toNat :=
  h.owned.pool (tableHeld hx ht)

theorem not_free (h : DiskOk V w) (hr : Holds V w r b) : w.free b ≠ true := by
  rw [(h.owned.pool hr).inUse]
  exact Bool.false_ne_true

/-- The pointer of a block is in the file itself or in its indirect block. -/
theorem slot_cases (w : Words) (x : Nat) (hn : n < ndirect + nindirect) (hr : w.Ready x n) :
    (n < ndirect ∧ w.slotIx x n = x + (34 + n)) ∨
      (ndirect ≤ n ∧ w.table x ≠ 0 ∧ InBlock (w.table x).toNat (w.slotIx x n)) := by
  unfold Words.slotIx
  split
  · rename_i hlt
    exact .inl ⟨hlt, Nat.add_assoc ..⟩
  · rename_i hge
    unfold ndirect nindirect at *
    exact .inr ⟨by omega, hr.resolve_left hge, InBlock.mk (by omega)⟩

section
variable (h : DiskOk V w) (hx : V.file x) (hy : V.file y) (hn : n < ndirect + nindirect)
include h hx hy hn

theorem slot_ne_field (hr : w.Ready x n) (hc : c < 34 ∨ c = 44) : w.slotIx x n ≠ y + c := by
  obtain ⟨hlt, heq⟩ | ⟨-, ht, hin⟩ := slot_cases w x hn hr
  · rw [heq]
    unfold ndirect at hlt
    exact Volume.field_ne hx hy (by omega) (by omega) (.inr (by omega))
  · intro heq
    exact Volume.field_not_inBlock hy (k := c) (by omega) (h.tables x hx ht) (heq ▸ hin)

theorem slot_ne (hk : k < ndirect + nindirect) (hr : w.Ready x n) (hr' : w.Ready y k) (hne : x ≠ y ∨ n ≠ k) :
    w.slotIx x n ≠ w.slotIx y k := by
  obtain ⟨hlt, heq⟩ | ⟨hge, ht, hin⟩ := slot_cases w x hn hr <;>
    obtain ⟨hlt', heq'⟩ | ⟨hge', ht', hin'⟩ := slot_cases w y hk hr'
  · rw [heq, heq']
    unfold ndirect at *
    exact Volume.field_ne hx hy (by omega) (by omega) (hne.imp_right (by omega))
  · rw [heq]
    unfold ndirect at hlt
    intro heq
    exact Volume.field_not_inBlock hx (k := 34 + n) (by omega) (h.tables y hy ht') (heq ▸ hin')
  · rw [heq']
    unfold ndirect at hlt'
    intro heq
    exact Volume.field_not_inBlock hy (k := 34 + k) (by omega) (h.tables x hx ht) (heq ▸ hin)
  · by_cases hxy : x = y
    · subst hxy
      have hnk := hne.resolve_left (· rfl)
      unfold Words.slotIx
      rw [if_neg (by omega), if_neg (by omega)]
      omega
    · intro heq
      rw [heq] at hin
      have hsame := h.owned.inj (tableHeld hx ht) (hin.unique hin' ▸ tableHeld hy ht')
      exact hxy (Holder.table.inj hsame)

end

section
variable (h : DiskOk V w) (hx : V.file x) (hn : n < ndirect + nindirect) (hr : w.Ready x n)
include h hx hn hr

theorem slot_not_bitmap : ¬ InBitmap V.N (w.slotIx x n) := by
  obtain ⟨hlt, heq⟩ | ⟨-, ht, hin⟩ := slot_cases w x hn hr
  · rw [heq]
    unfold ndirect at hlt
    exact Volume.field_not_bitmap hx (by omega)
  · exact hin.not_bitmap (h.tablePool hx ht).lower

theorem slot_ne_nblocks : w.slotIx x n ≠ nblocksIx := by
  obtain ⟨hlt, heq⟩ | ⟨-, ht, hin⟩ := slot_cases w x hn hr
  · rw [heq]
    unfold ndirect at hlt
    exact Volume.field_ne_nblocks hx (by omega)
  · have hp := h.tablePool hx ht
    have hlow := two_lt_reserved hp.upper
    have hge := hp.lower
    exact hin.ne_nblocks (by omega)

end

end DiskOk

/-! ## Memories with the same pointers -/

structure SameFiles (V : Volume) (w w' : Words) : Prop where
  table : ∀ x, V.file x → w'.table x = w.table x
  ptr : ∀ x n, V.file x → n < ndirect + nindirect → w'.ptr x n = w.ptr x n

section
variable {w w' : Words} (ht : w'.table x = w.table x)
include ht

theorem Words.slotIx_congr : w'.slotIx x n = w.slotIx x n := by
  unfold Words.slotIx
  rw [ht]

theorem Words.ready_congr : w'.Ready x n ↔ w.Ready x n := by
  unfold Words.Ready
  rw [ht]

theorem Words.ptr_congr (hs : w.Ready x n → w' (w.slotIx x n) = w (w.slotIx x n)) : w'.ptr x n = w.ptr x n := by
  unfold Words.ptr
  rw [if_congr (ready_congr ht) rfl rfl, slotIx_congr ht]
  split
  · exact hs ‹_›
  · rfl

end

theorem Words.ptr_ready {w : Words} (hr : w.Ready x n) : w.ptr x n = w (w.slotIx x n) := if_pos hr

theorem Words.ptr_direct {w : Words} (hn : n < ndirect) : w.ptr x n = w (x + (34 + n)) := by
  rw [ptr_ready (.inl hn), slotIx, if_pos hn, Nat.add_assoc]

theorem Words.ptr_not_ready {w : Words} (hr : ¬ w.Ready x n) : w.ptr x n = 0 := if_neg hr

namespace SameFiles

variable {V : Volume} {w w' : Words} {x : Nat}

theorem holds (h : SameFiles V w w') (hr : Holds V w' r b) : Holds V w r b := by
  cases r with
  | block x n =>
    obtain ⟨hx, hn, hne, heq⟩ := hr
    have hp := h.ptr x n hx (Nat.lt_of_lt_of_le hn V.cover_le)
    exact ⟨hx, hn, hp ▸ hne, hp ▸ heq⟩
  | table x =>
    obtain ⟨hx, hne, heq⟩ := hr
    have ht := h.table x hx
    exact ⟨hx, ht ▸ hne, ht ▸ heq⟩

theorem of_words (h : DiskOk V w)
    (hfield : ∀ x k, V.file x → 34 ≤ k → k < 45 → w' (x + k) = w (x + k))
    (hcell : ∀ x i, V.file x → w.table x ≠ 0 → InBlock (w.table x).toNat i → w' i = w i) :
    SameFiles V w w' := by
  have ht : ∀ x, V.file x → w'.table x = w.table x := fun x hx => hfield x 44 hx (by omega) (by omega)
  refine ⟨ht, fun x n hx hn => Words.ptr_congr (ht x hx) fun hr => ?_⟩
  obtain ⟨hlt, heq⟩ | ⟨-, ht', hin⟩ := DiskOk.slot_cases w x hn hr
  · rw [heq]
    unfold ndirect at hlt
    exact hfield x _ hx (by omega) (by omega)
  · exact hcell x _ hx ht' hin

section
variable (h : DiskOk V w) (hs : SameFiles V w w') (hn : w' nblocksIx = w nblocksIx)
include h hs hn

theorem diskOk (hres : ∀ b < reserved V.N, w'.free b = false) (hhome : ∀ b, V.home b → w'.free b = false)
    (hu : ∀ r b, Holds V w r b → w.free b = false → w'.free b = false) : DiskOk V w' where
  nblocks := hn ▸ h.nblocks
  reserved := hres
  homes := hhome
  tables x hx := by
    rw [hs.table x hx]
    exact h.tables x hx
  owned := h.owned.restrict (fun _ _ hr => hs.holds hr) fun r b hr hp =>
    ⟨hp.lower, hp.upper, hu r b (hs.holds hr) hp.inUse⟩

theorem diskOk_of_free (hf : ∀ b < V.N, w'.free b = w.free b) : DiskOk V w' := by
  refine hs.diskOk h hn (fun b hb => ?_) (fun b hb => ?_) fun r b hr hb => ?_
  · exact (hf b (Nat.lt_of_lt_of_le hb V.room)).trans (h.reserved b hb)
  · exact (hf b (Volume.home_lt hb)).trans (h.homes b hb)
  · exact (hf b (h.owned.pool hr).upper).trans hb

end

end SameFiles

end Jos.Fs
