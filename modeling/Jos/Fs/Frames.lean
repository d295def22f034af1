import Jos.Fs.Serve

/-!
# What the file functions leave alone

None of `fs.c` touches the table of open files, and only the loop of
`file_read` and `file_write` copies between blocks and buffers.
-/

namespace Jos.Fs

open Lib

section
variable {γ : Type} {p : Fs → γ}

def OffMem (p : Fs → γ) : Prop := ∀ s m, p { s with mem := m } = p s

theorem keeps_load (a : Nat) : Keeps p (load a) := .bind .get fun _ => .pure

theorem keeps_flushBlock (a : Nat) : Keeps p (flushBlock a) := .ite .throw .pure

theorem keeps_diskaddr (b : Word) : Keeps p (diskaddr b) :=
  .bind (keeps_load _) fun _ => .ite (.bind .throw fun _ => .pure) .pure

theorem keeps_dirBlocks (dir : Nat) : Keeps p (dirBlocks dir) :=
  .bind (keeps_load _) fun _ => .ite (.bind .throw fun _ => .pure) .pure

variable (hp : OffMem p)

include hp

theorem keeps_store (a : Nat) (w : Word) : Keeps p (store a w) := .modify fun s => hp s _

theorem keeps_freeBlock (b : Word) : Keeps p (freeBlock b) := by
  refine .ite (.bind .throw fun _ => ?_) ?_
  all_goals exact .bind (keeps_load _) fun _ => keeps_store hp _ _

theorem keeps_allocFrom (k b : Nat) : Keeps p (allocFrom k b) := by
  induction k generalizing b with
  | zero => exact .pure
  | succ k ih =>
    refine .bind (keeps_load _) fun _ => .ite .pure (.bind (keeps_load _) fun _ => .ite (ih _) (.ite ?_ (ih _)))
    exact .bind (keeps_store hp _ _) fun _ => .bind (keeps_flushBlock _) fun _ => .pure

theorem keeps_allocBlock : Keeps p allocBlock := .bind (keeps_load _) fun _ => keeps_allocFrom hp _ _

theorem keeps_fileBlockWalk (f : Nat) (n : Word) (alloc : Bool) : Keeps p (fileBlockWalk f n alloc) := by
  refine .ite .pure (.ite .pure (.bind (keeps_load _) fun _ => .ite ?_ (.ite ?_ .pure)))
  · exact .bind (keeps_diskaddr _) fun _ => .pure
  · refine .bind (keeps_allocBlock hp) fun _ => .bind (keeps_store hp _ _) fun _ => .bind (keeps_load _) fun _ => ?_
    exact .bind (keeps_diskaddr _) fun _ => .pure

theorem keeps_fileGetBlock (f : Nat) (n : Word) : Keeps p (fileGetBlock f n) := by
  refine .ite .pure (.bind (keeps_fileBlockWalk hp f n true) fun r => ?_)
  cases r with
  | error => exact .throw
  | ok slot =>
    refine .bind (keeps_load _) fun _ => .ite (.bind (keeps_diskaddr _) fun _ => .pure) ?_
    refine .bind (keeps_allocBlock hp) fun _ => .bind (keeps_store hp _ _) fun _ => .bind (keeps_load _) fun _ => ?_
    exact .bind (keeps_diskaddr _) fun _ => .pure

theorem keeps_fileFreeBlock (f : Nat) (n : Word) : Keeps p (fileFreeBlock f n) := by
  refine .bind (keeps_fileBlockWalk hp f n false) fun r => ?_
  cases r with
  | error => exact .pure
  | ok slot =>
    refine .bind (keeps_load _) fun _ => .ite ?_ .pure
    exact .bind (keeps_freeBlock hp _) fun _ => .bind (keeps_store hp _ _) fun _ => .pure

theorem keeps_fileTruncateBlocks (f : Nat) (size : Word) : Keeps p (fileTruncateBlocks f size) := by
  refine .bind (keeps_load _) fun _ => .bind (.forM fun _ => ?_) fun _ => .bind (keeps_load _) fun _ => .ite ?_ .pure
  · exact .bind (keeps_fileFreeBlock hp _ _) fun _ => .pure
  · exact .bind (keeps_freeBlock hp _) fun _ => keeps_store hp _ _

theorem keeps_fileSetSize (f : Nat) (size : Word) : Keeps p (fileSetSize f size) := by
  refine .bind (keeps_load _) fun _ => .ite (.bind (keeps_fileTruncateBlocks hp f size) fun _ => ?_) ?_
  all_goals exact .bind (keeps_store hp _ _) fun _ => .bind (keeps_flushBlock _) fun _ => .pure

theorem keeps_fileFlush (f : Nat) : Keeps p (fileFlush f) := by
  refine .bind (keeps_load _) fun _ => .bind (.forM fun i => ?_) fun _ => .bind (keeps_flushBlock _) fun _ =>
    .bind (keeps_load _) fun _ => .ite ?_ .pure
  · refine .bind (keeps_fileBlockWalk hp _ _ _) fun r => ?_
    cases r with
    | error => exact .pure
    | ok slot =>
      refine .bind (keeps_load _) fun _ => .ite ?_ .pure
      exact .bind (keeps_diskaddr _) fun _ => keeps_flushBlock _
  · exact .bind (keeps_diskaddr _) fun _ => keeps_flushBlock _

theorem keeps_dirScan (dir : Nat) (test : Mem → Nat → Bool) (k i : Nat) : Keeps p (dirScan dir test k i) := by
  induction k generalizing i with
  | zero => exact .pure
  | succ k ih =>
    refine .bind (keeps_fileGetBlock hp _ _) fun r => ?_
    cases r with
    | error => exact .pure
    | ok blk =>
      refine .bind .get fun s => ?_
      dsimp only
      split
      · exact .pure
      · exact ih _

theorem keeps_dirLookup (dir : Nat) (name : Name) : Keeps p (dirLookup dir name) := by
  refine .bind (keeps_dirBlocks _) fun _ => .bind (keeps_dirScan hp _ _ _ _) fun r => ?_
  rcases r with r | f | _ <;> exact .pure

theorem keeps_dirAllocFile (dir : Nat) : Keeps p (dirAllocFile dir) := by
  refine .bind (keeps_dirBlocks _) fun _ => .bind (keeps_dirScan hp _ _ _ _) fun r => ?_
  rcases r with r | _ | f
  · exact .pure
  · exact .bind (keeps_load _) fun _ => .bind (keeps_store hp _ _) fun _ => keeps_fileGetBlock hp _ _
  · exact .pure

theorem keeps_walkFrom (f : Nat) (dir : Option Nat) (names : List Name) : Keeps p (walkFrom f dir names) := by
  induction names generalizing f dir with
  | nil => exact .pure
  | cons name rest ih =>
    refine .ite .pure (.bind (keeps_load _) fun _ => .ite .pure (.bind (keeps_dirLookup hp _ _) fun r => ?_))
    cases r with
    | error => exact .ite .pure .pure
    | ok g => exact ih _ _

theorem keeps_fileOpen (path : Name) : Keeps p (fileOpen path) := by
  refine .bind (keeps_walkFrom hp _ _ _) fun walk => ?_
  cases walk.file <;> exact .pure

theorem keeps_strcpy (a : Nat) (name : Name) : Keeps p (strcpy a name) := .modify fun s => hp s _

theorem keeps_fileCreate (path : Name) : Keeps p (fileCreate path) := by
  refine .bind (keeps_walkFrom hp _ _ _) fun walk => .ite .pure ?_
  cases walk.dir with
  | none => exact .pure
  | some dir =>
    refine .ite .pure (.bind (keeps_dirAllocFile hp _) fun r => ?_)
    cases r with
    | error => exact .pure
    | ok f => exact .bind (keeps_strcpy hp _ _) fun _ => .bind (keeps_fileFlush hp _) fun _ => .pure

theorem keeps_openPath (path : Name) (omode : Word) : Keeps p (openPath path omode) := by
  refine .ite (.bind (keeps_fileCreate hp _) fun r => ?_) (keeps_fileOpen hp _)
  cases r with
  | ok f => exact .pure
  | error r => exact .ite (keeps_fileOpen hp _) .pure

end

theorem offMem_opentab : OffMem Fs.opentab := fun _ _ => rfl

theorem offMem_moves : OffMem Fs.moves := fun _ _ => rfl

/-- Past the last block `file_get_block` returns `-E_INVAL`, and elsewhere a block: it
has no other result. -/
theorem fileGetBlock_result (f : Nat) (n : Word) (s : Fs) :
    Triple (fileGetBlock f n) s
      (fun r t => t.moves = s.moves ∧
        if ndirect + nindirect ≤ n.toNat then r = .error (-eInval) else ∃ a, r = .ok a)
      (fun _ t => t.moves = s.moves) := by
  have hres : Triple (fileGetBlock f n) s
      (fun r _ => if ndirect + nindirect ≤ n.toNat then r = .error (-eInval) else ∃ a, r = .ok a) (fun _ _ => True) := by
    unfold fileGetBlock
    refine .ite (fun h => .pure (by rw [if_pos h])) fun h => .bind .trivial fun r _ _ => ?_
    simp only [if_neg h]
    cases r with
    | error e => exact .throw trivial
    | ok slot =>
      refine .bind .trivial fun b _ _ => .ite (fun _ => ?_) fun _ => ?_
      · exact .bind .trivial fun a _ _ => .pure ⟨a, rfl⟩
      · refine .bind .trivial fun _ _ _ => .bind .trivial fun _ _ _ => .bind .trivial fun _ _ _ => ?_
        exact .bind .trivial fun a _ _ => .pure ⟨a, rfl⟩
  exact ((Keeps.triple (keeps_fileGetBlock offMem_moves f n) s).and hres).imp_error fun _ _ h => h.1

end Jos.Fs
