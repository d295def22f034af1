import Jos.Kern.Hostile

/-!
# Formatted output (`lib/printfmt.c`) and `sys_cputs`

`vprintfmt` over a format in kernel memory and the words of its argument list,
with the characters it puts and the addresses it loads from through an
argument of `%s`. An address that is not mapped is a page fault, and what was
loaded until then counts.
-/

namespace Jos.Printfmt

open Lib

inductive Stop
  | pageFault (va : Word)
  /-- A string without an end, all around the address space. -/
  | endless

structure Output where
  out : List Int
  reads : List Word

abbrev FormatM := M Output Stop

def putch (ch : Int) : FormatM Unit := modify fun o => { o with out := o.out ++ [ch] }

def putchars (l : List Char) : FormatM Unit := l.forM fun ch => putch ch.toNat

def pad (ch : Char) (n : Int) : FormatM Unit := putchars (List.replicate n.toNat ch)

abbrev VaList := Nat → Word

def VaList.drop (ap : VaList) (n : Nat) : VaList := fun i => ap (i + n)

/-- Where a string to print is: in the kernel, or at an argument's address. -/
inductive Str
  | literal (l : List Char)
  | user (va : Word)

def Str.load (mem : Word → Option (BitVec 8)) (i : Nat) : Str → FormatM (BitVec 8)
  | .literal l => return BitVec.ofNat 8 (l.getD i '\x00').toNat
  | .user va => do
    let a := va + BitVec.ofNat 32 i
    modify fun o => { o with reads := o.reads ++ [a] }
    match mem a with
    | some b => return b
    | none => throw (.pageFault a)

/-! ## Numbers -/

def digit (n : Nat) : Char := "0123456789abcdef".toList.getD n '0'

/-- An `int`. -/
@[irreducible] def wrap (n : Int) : Int := n.bmod (2 ^ 32)

/-- `k` bounds the number of digits. -/
def printnum (base : Nat) (padc : Char) : Nat → Nat → Int → FormatM Unit
  | 0, _, _ => return
  | k + 1, num, width => do
    if base ≤ num then printnum base padc k (num / base) (wrap (width - 1))
    else pad padc (wrap (width - 1))
    putch (digit (num % base)).toNat

def getuint (ap : VaList) (lflag : Nat) : Nat × VaList :=
  if 2 ≤ lflag then ((ap 0).toNat + 2 ^ 32 * (ap 1).toNat, ap.drop 2) else ((ap 0).toNat, ap.drop 1)

def getint (ap : VaList) (lflag : Nat) : Int × VaList :=
  if 2 ≤ lflag then ((ap 0).toNat + 2 ^ 32 * (ap 1).toInt, ap.drop 2) else ((ap 0).toInt, ap.drop 1)

/-- No number has more than 22 digits. -/
def number (num base : Nat) (width : Int) (padc : Char) : FormatM Unit := printnum base padc 22 num width

def signed (num width : Int) (padc : Char) : FormatM Unit := do
  if num < 0 then putch '-'.toNat
  number num.natAbs 10 width padc

/-! ## Strings -/

def strnlen (mem : Word → Option (BitVec 8)) (p : Str) : Nat → Nat → FormatM Nat
  | 0, _ => return 0
  | size + 1, i => do
    if (← p.load mem i) = 0#8 then return 0
    else return (← strnlen mem p size (i + 1)) + 1

def putString (altflag : Bool) (b : BitVec 8) : FormatM Unit :=
  if altflag ∧ (b.toInt < ' '.toNat ∨ '~'.toNat < b.toInt) then putch '?'.toNat else putch b.toInt

/-- The loop of `%s`, from the character `i` of the string on. It loads a
character before it looks at `precision`. Returns `width`. -/
def chars (mem : Word → Option (BitVec 8)) (p : Str) (altflag : Bool) : Nat → Nat → Int → Int → FormatM Int
  | 0, _, _, _ => throw .endless
  | k + 1, i, precision, width => do
    let ch ← p.load mem i
    if ch = 0#8 then return width
    else if precision < 0 then do
      putString altflag ch
      chars mem p altflag k (i + 1) precision (width - 1)
    else if 0 ≤ precision - 1 then do
      putString altflag ch
      chars mem p altflag k (i + 1) (precision - 1) (width - 1)
    else return width

structure Flags where
  padc : Char
  width : Int
  precision : Int
  lflag : Nat
  altflag : Bool

def Flags.initial : Flags := ⟨' ', -1, -1, 0, false⟩

def Flags.processPrecision (f : Flags) (n : Int) : Flags :=
  if f.width < 0 then { f with width := n, precision := -1 } else { f with precision := n }

def Flags.point (f : Flags) : Flags := if f.width < 0 then { f with width := 0 } else f

/-- The padding before the string. Returns what is left of `width`. -/
def padLeft (mem : Word → Option (BitVec 8)) (f : Flags) (p : Str) : FormatM Int :=
  if 0 < f.width ∧ f.padc ≠ '-' then do
    let n ← strnlen mem p (BitVec.ofInt 32 f.precision).toNat 0
    pad f.padc (f.width - n)
    return min (f.width - n) 0
  else return f.width

def string (mem : Word → Option (BitVec 8)) (f : Flags) (p : Str) : FormatM Unit := do
  let width ← padLeft mem f p
  pad ' ' (← chars mem p f.altflag (2 ^ 32) 0 f.precision width)

def nullString : Str := .literal "(null)".toList

def errorString : List String :=
  ["unspecified error", "bad environment", "invalid parameter", "out of memory", "out of environments",
    "segmentation fault", "env is not recving", "unexpected end of file", "no free space on disk",
    "too many files are open", "file or block not found", "invalid path", "file already exists",
    "file is not a valid executable", "operation not supported"]

/-- `%e`: what `printfmt` does with `"%s"` or `"error %d"`. -/
def errorMessage (mem : Word → Option (BitVec 8)) (err : Nat) : FormatM Unit :=
  match (none :: errorString.map some).getD err none with
  | some text => string mem .initial (.literal text.toList)
  | none => do
    putchars "error ".toList
    signed err (-1) ' '

/-! ## The format -/

def isDigit (ch : Char) : Bool := '0' ≤ ch && ch ≤ '9'

def decimal (l : List Char) : Int := l.foldl (fun n ch => wrap (n * 10 + (ch.toNat - '0'.toNat))) 0

/-- What stands between a `%` and the character that ends the escape. -/
structure Escape where
  flags : Flags
  ap : VaList
  ch : Char
  fmt : List Char

/-- The `reswitch` loop. The end of the format is its `NUL`. -/
def reswitch (f : Flags) (ap : VaList) : List Char → Escape
  | [] => ⟨f, ap, '\x00', []⟩
  | ch :: fmt =>
    if ch = '-' then reswitch { f with padc := '-' } ap fmt
    else if ch = '0' then reswitch { f with padc := '0' } ap fmt
    else if isDigit ch then
      reswitch (f.processPrecision (decimal (ch :: fmt.takeWhile isDigit))) ap (fmt.dropWhile isDigit)
    else if ch = '*' then reswitch (f.processPrecision (ap 0).toInt) (ap.drop 1) fmt
    else if ch = '.' then reswitch f.point ap fmt
    else if ch = '#' then reswitch { f with altflag := true } ap fmt
    else if ch = 'l' then reswitch { f with lflag := f.lflag + 1 } ap fmt
    else ⟨f, ap, ch, fmt⟩
termination_by fmt => fmt.length
decreasing_by
  all_goals have hdrop := (List.dropWhile_sublist isDigit (l := fmt)).length_le
  all_goals simp only [List.length_cons]
  all_goals omega

theorem reswitch_length (f : Flags) (ap : VaList) (fmt : List Char) : (reswitch f ap fmt).fmt.length ≤ fmt.length := by
  fun_induction reswitch f ap fmt with
  | case1 => exact Nat.le_refl _
  | case4 f ap ch fmt _ _ _ ih =>
    have hdrop := (List.dropWhile_sublist isDigit (l := fmt)).length_le
    simp only [List.length_cons]
    omega
  | case9 => simp
  | _ =>
    simp only [List.length_cons]
    omega

/-- The conversion that `ch` asks for; none if `ch` is not known. -/
def convert (mem : Word → Option (BitVec 8)) (f : Flags) (ap : VaList) : Char → Option (FormatM Unit × VaList)
  | 'c' => some (putch (ap 0).toInt, ap.drop 1)
  | 'e' => some (errorMessage mem (ap 0).toInt.natAbs, ap.drop 1)
  | 's' => some (string mem f (if ap 0 = 0 then nullString else .user (ap 0)), ap.drop 1)
  | 'd' => some (signed (getint ap f.lflag).1 f.width f.padc, (getint ap f.lflag).2)
  | 'u' => some (number (getuint ap f.lflag).1 10 f.width f.padc, (getuint ap f.lflag).2)
  | 'o' => some (number (getuint ap f.lflag).1 8 f.width f.padc, (getuint ap f.lflag).2)
  | 'p' => some (putchars ['0', 'x'] *> number (ap 0).toNat 16 f.width f.padc, ap.drop 1)
  | 'x' => some (number (getuint ap f.lflag).1 16 f.width f.padc, (getuint ap f.lflag).2)
  | '%' => some (putch '%'.toNat, ap)
  | _ => none

def vprintfmt (mem : Word → Option (BitVec 8)) (ap : VaList) : List Char → FormatM Unit
  | [] => return
  | ch :: fmt =>
    if ch ≠ '%' then do
      putch ch.toNat
      vprintfmt mem ap fmt
    else
      let e := reswitch .initial ap fmt
      match convert mem e.flags e.ap e.ch with
      | some (conversion, ap') => do
        conversion
        vprintfmt mem ap' e.fmt
      | none => do
        -- back to just after the `%`
        putch '%'.toNat
        vprintfmt mem e.ap fmt
termination_by fmt => fmt.length
decreasing_by
  · simp
  · exact Nat.lt_succ_of_le (reswitch_length ..)
  · simp

def cputs (m : Mem) (pgdir : Nat) (s len : Word) : FormatM Unit :=
  vprintfmt (byteAt m pgdir) (fun i => if i = 0 then len else s) ['%', '.', '*', 's']

def Passes (p : Pmap) (pgdir : Nat) (s len : Word) : Prop :=
  exec (userMemCheck pgdir s len (pteU ||| pteU)) p = (.ok 0, p)

def cputsReads (m : Mem) (pgdir : Nat) (s len : Word) : List Word := (exec (cputs m pgdir s len) ⟨[], []⟩).2.reads

/-! ## What is loaded -/

/-- The addresses from `va` on up to a `NUL` or one that is not mapped, at most `n`. -/
def fetched (mem : Word → Option (BitVec 8)) : Nat → Word → List Word
  | 0, _ => []
  | n + 1, va => va :: match mem va with
    | some b => if b = 0#8 then [] else fetched mem n (va + 1#32)
    | none => []

theorem add_one_ofNat (va : Word) (j : Nat) : va + 1#32 + BitVec.ofNat 32 j = va + BitVec.ofNat 32 (j + 1) := by
  rw [BitVec.add_assoc, Nat.add_comm j 1, BitVec.ofNat_add]

theorem add_ofNat_one (va : Word) (j : Nat) : va + BitVec.ofNat 32 j + 1#32 = va + BitVec.ofNat 32 (j + 1) := by
  rw [BitVec.add_assoc, BitVec.ofNat_add]

/-- `n` characters from `va` on are there, none of them a `NUL`. -/
def Runs (mem : Word → Option (BitVec 8)) (va : Word) (n : Nat) : Prop :=
  ∀ i < n, ∃ b, mem (va + BitVec.ofNat 32 i) = some b ∧ b ≠ 0#8

section
variable {mem : Word → Option (BitVec 8)} {va : Word} {n : Nat}

theorem runs_succ : Runs mem va (n + 1) ↔ (∃ b, mem va = some b ∧ b ≠ 0#8) ∧ Runs mem (va + 1#32) n := by
  unfold Runs
  rw [Nat.forall_lt_succ_left]
  simp only [add_one_ofNat, BitVec.ofNat_eq_ofNat, BitVec.add_zero]

theorem mem_fetched : a ∈ fetched mem n va ↔ ∃ j < n, a = va + BitVec.ofNat 32 j ∧ Runs mem va j := by
  induction n generalizing va with
  | zero => simp [fetched]
  | succ n ih =>
    rw [fetched, List.mem_cons, Nat.exists_lt_succ_left]
    refine or_congr ?_ ?_
    · simp [Runs]
    · cases hb : mem va with
      | none => simp [runs_succ, hb]
      | some b =>
        by_cases h0 : b = 0#8
        · simp [runs_succ, hb, h0]
        · simp [runs_succ, hb, h0, ih, add_one_ofNat]

/-- The string ends, or its first `n` characters do, before an address that is not mapped. -/
def Ends (mem : Word → Option (BitVec 8)) (n : Nat) (va : Word) : Prop :=
  ∀ a ∈ fetched mem n va, (mem a).isSome = true

theorem charsMapped_iff : CharsMapped m pgdir va n ↔ Ends (byteAt m pgdir) n va := by
  simp only [Ends, mem_fetched]
  constructor
  · rintro h _ ⟨j, hj, rfl, hrun⟩
    refine h j hj fun i hi hz => ?_
    obtain ⟨b, hb, h0⟩ := hrun i hi
    exact h0 (Option.some.inj (hb.symm.trans hz))
  · intro h j
    induction j using Nat.strong_induction_on with
    | _ j ih =>
      intro hj hbefore
      refine h _ ⟨j, hj, rfl, fun i hi => ?_⟩
      have hsome := ih i hi (by omega) fun i' hi' => hbefore i' (by omega)
      obtain ⟨b, hb⟩ := Option.isSome_iff_exists.1 hsome
      exact ⟨b, hb, fun h0 => hbefore i hi (h0 ▸ hb)⟩

end

/-! ## The parts of the formatter -/

/-- A part that puts characters only. -/
def Quiet (m : FormatM α) : Prop := ∀ o, Triple m o (fun _ t => t.reads = o.reads) fun _ _ => False

/-- A part that loads from the addresses `l`, and returns exactly if all of them are mapped. -/
def Loads (mem : Word → Option (BitVec 8)) (l : List Word) (m : FormatM α) : Prop :=
  ∀ o, Triple m o (fun _ t => t.reads = o.reads ++ l ∧ ∀ a ∈ l, (mem a).isSome = true)
    fun _ t => t.reads = o.reads ++ l ∧ ¬ ∀ a ∈ l, (mem a).isSome = true

theorem putch_quiet (ch : Int) : Quiet (putch ch) := fun _ => .modify rfl

theorem putchars_quiet (l : List Char) : Quiet (putchars l) := by
  intro o
  exact .forM (I := fun _ t => t.reads = o.reads) rfl fun _ _ t ht =>
    (putch_quiet _ t).imp (fun _ _ h => h.trans ht)

theorem putString_quiet : Quiet (putString altflag b) := by
  intro o
  exact .ite (fun _ => putch_quiet _ o) fun _ => putch_quiet _ o

section
variable {mem : Word → Option (BitVec 8)} {m : FormatM α} {f : α → FormatM β}

theorem Loads.pure (a : α) : Loads mem [] (Pure.pure a : FormatM α) :=
  fun o => .pure ⟨(List.append_nil _).symm, by simp⟩

theorem Loads.after (h : Quiet m) (hf : ∀ a, Loads mem l (f a)) : Loads mem l (m >>= f) := by
  intro o
  refine .bind ((h o).imp_error fun _ _ h => h.elim) fun a t ht => ?_
  rw [← ht]
  exact hf a t

theorem Loads.before (h : Loads mem l m) (hf : ∀ a, Quiet (f a)) : Loads mem l (m >>= f) := by
  intro o
  refine .bind (h o) fun a t ht => ?_
  exact (hf a t).mono (fun _ u hu => ⟨hu.trans ht.1, ht.2⟩) fun _ _ h => h.elim

end

section
variable {mem : Word → Option (BitVec 8)} {va : Word}

theorem load_bind {f : BitVec 8 → FormatM α} {l : BitVec 8 → List Word}
    (hf : ∀ b, mem (va + BitVec.ofNat 32 i) = some b → Loads mem (l b) (f b)) :
    Loads mem ((va + BitVec.ofNat 32 i) :: match mem (va + BitVec.ofNat 32 i) with
      | some b => l b
      | none => []) (Str.load mem i (.user va) >>= f) := by
  intro o
  unfold Str.load
  dsimp only
  generalize va + BitVec.ofNat 32 i = a at hf ⊢
  cases h : mem a with
  | none =>
    refine .bind (Q := fun _ _ => False) ?_ fun _ _ h => h.elim
    refine .bind (.modify (Q := fun _ t => t.reads = o.reads ++ [a]) rfl) fun _ t ht => ?_
    exact .throw ⟨ht, by simp [h]⟩
  | some b =>
    refine .bind (Q := fun b' t => b' = b ∧ t.reads = o.reads ++ [a]) ?_ ?_
    · refine .bind (.modify (Q := fun _ t => t.reads = o.reads ++ [a]) rfl) fun _ t ht => ?_
      exact .pure ⟨rfl, ht⟩
    · rintro _ t ⟨rfl, ht⟩
      refine (hf _ h t).mono (fun _ u hu => ?_) fun _ u hu => ?_
      · simpa [h, ht] using hu
      · simpa [h, ht] using hu

/-- With a precision `n` the loop loads up to `n + 1` characters. -/
theorem chars_loads (hk : n < k) : Loads mem (fetched mem (n + 1) (va + BitVec.ofNat 32 i))
    (chars mem (.user va) altflag k i n width) := by
  induction n generalizing k i width with
  | zero =>
    obtain ⟨k, rfl⟩ := Nat.exists_eq_add_one_of_ne_zero (Nat.ne_zero_of_lt hk)
    refine load_bind (l := fun b => if b = 0#8 then [] else []) fun b _ => ?_
    split
    · exact .pure _
    · exact .pure _
  | succ n ih =>
    obtain ⟨k, rfl⟩ := Nat.exists_eq_add_one_of_ne_zero (Nat.ne_zero_of_lt hk)
    refine load_bind (l := fun b => if b = 0#8 then [] else fetched mem (n + 1) (va + BitVec.ofNat 32 i + 1#32))
      fun b _ => ?_
    split
    · exact .pure _
    · rw [if_neg (by omega), if_pos (by omega), add_ofNat_one]
      refine .after putString_quiet fun _ => ?_
      have hrest := @ih k (i + 1) (width - 1) (by omega)
      rwa [show ((n + 1 : Nat) : Int) - 1 = n by omega]

theorem string_loads {f : Flags} {n : Nat} (hw : f.width ≤ 0) (hp : f.precision = n) (hn : n < 2 ^ 32) :
    Loads mem (fetched mem (n + 1) va) (string mem f (.user va)) := by
  have hpad : padLeft mem f (.user va) = pure f.width := if_neg fun h => absurd h.1 (by omega)
  unfold string
  rw [hpad, pure_bind, hp]
  refine Loads.before ?_ fun _ => putchars_quiet _
  have h : Loads mem (fetched mem (n + 1) (va + BitVec.ofNat 32 0))
      (chars mem (.user va) f.altflag (2 ^ 32) 0 n f.width) := chars_loads hn
  rwa [BitVec.add_zero] at h

end

/-- In `"%.*s"` the `.` makes the width 0, so that `*` is the precision. -/
theorem vprintfmt_eq (mem : Word → Option (BitVec 8)) (ap : VaList) : vprintfmt mem ap ['%', '.', '*', 's'] =
    (string mem ⟨' ', 0, (ap 0).toInt, 0, false⟩ (if ap 1 = 0 then nullString else .user (ap 1))) := by
  have hescape : reswitch .initial ap ['.', '*', 's'] =
      ⟨⟨' ', 0, (ap 0).toInt, 0, false⟩, ap.drop 1, 's', []⟩ := by
    simp [reswitch, isDigit, Flags.point, Flags.initial, Flags.processPrecision]
  rw [vprintfmt, if_neg (by decide), hescape]
  simp [convert, vprintfmt, VaList.drop]

theorem Quiet.keeps {m : FormatM α} (h : Quiet m) : Keeps Output.reads m := by
  intro o
  obtain ⟨a, t, hm, ht⟩ := (h o).returns
  rw [hm]
  exact ht

section
variable {mem : Word → Option (BitVec 8)} {l : List Char}

theorem strnlen_literal : Keeps Output.reads (strnlen mem (.literal l) size i) := by
  induction size generalizing i with
  | zero => exact .pure
  | succ size ih => exact .bind .pure fun _ => .ite .pure (.bind ih fun _ => .pure)

theorem chars_literal : Keeps Output.reads (chars mem (.literal l) altflag k i precision width) := by
  induction k generalizing i precision width with
  | zero => exact .throw
  | succ k ih =>
    have hput : ∀ {b}, Keeps Output.reads (putString altflag b) := putString_quiet.keeps
    exact .bind .pure fun _ => .ite .pure (.ite (.bind hput fun _ => ih) (.ite (.bind hput fun _ => ih) .pure))

theorem string_literal (f : Flags) : Keeps Output.reads (string mem f (.literal l)) := by
  have hpad : ∀ {ch n}, Keeps Output.reads (pad ch n) := (putchars_quiet _).keeps
  refine .bind (.ite ?_ .pure) fun _ => .bind chars_literal fun _ => hpad
  exact .bind strnlen_literal fun _ => .bind hpad fun _ => .pure

end

/-! ## `sys_cputs` -/

theorem cputs_loads (hs : s ≠ 0) (hlen : len.toNat < 2 ^ 31) :
    Loads (byteAt m pgdir) (fetched (byteAt m pgdir) (len.toNat + 1) s) (cputs m pgdir s len) := by
  unfold cputs
  rw [vprintfmt_eq]
  rw [if_pos rfl, if_neg (by decide : ¬ 1 = 0), if_neg hs]
  exact string_loads (Int.le_refl 0) (BitVec.toInt_eq_toNat_of_lt (by omega)) (by omega)

/-- It returns exactly if the kernel's reads of the string, as `sysCputs` has them, do. -/
theorem cputs_returns_iff (hs : s ≠ 0) (hlen : len.toNat < 2 ^ 31) :
    (∃ t, exec (cputs p.mem pgdir s len) ⟨[], []⟩ = (.ok (), t)) ↔
      ∃ t, exec (readChars pgdir (charsRead len) s) p = (.ok (), t) := by
  have hchars : charsRead len = len.toNat + 1 :=
    if_neg (by rw [BitVec.toInt_eq_toNat_of_lt (by omega)]; omega)
  have hread := readChars_needs (s := p) pgdir (charsRead len) s
  rw [hchars, charsMapped_iff] at hread
  have hload := @cputs_loads s p.mem pgdir len hs hlen ⟨[], []⟩
  rw [hchars]
  constructor
  · rintro ⟨t, ht⟩
    obtain ⟨_, u, hu, -⟩ := (hread.never fun _ _ h => h (hload.ok ht).2).returns
    exact ⟨u, hu⟩
  · rintro ⟨t, ht⟩
    obtain ⟨_, u, hu, -⟩ := (hload.never fun _ _ h => h.2 (hread.ok ht).2).returns
    exact ⟨u, hu⟩

section
variable {p : Pmap} {pgdir : Nat} {s len : Word}

theorem cputsReads_null : cputsReads p.mem pgdir 0 len = [] := by
  unfold cputsReads cputs
  rw [vprintfmt_eq]
  exact string_literal _ _

theorem cputsReads_eq (hs : s ≠ 0) (hlen : len.toNat < 2 ^ 31) :
    cputsReads p.mem pgdir s len = fetched (byteAt p.mem pgdir) (len.toNat + 1) s := by
  have h := @cputs_loads s p.mem pgdir len hs hlen ⟨[], []⟩
  unfold cputsReads
  cases hx : exec (cputs p.mem pgdir s len) ⟨[], []⟩ with
  | mk r t =>
    cases r with
    | ok a => exact (h.ok hx).1
    | error e => exact (h.error hx).1

theorem byteAt_of_accessible (h : Accessible m pgdir perm a) : (byteAt m pgdir (BitVec.ofNat 32 a)).isSome = true := by
  obtain ⟨-, w, hw, hperm⟩ := h
  have hpres := and_eq_of_sub (BitVec.or_comm .. ▸ sub_or_left pteP perm : Sub pteP (perm ||| pteP)) hperm
  obtain ⟨pt, hpt, rfl⟩ := Option.map_eq_some_iff.1 hw
  have hpte := entryPage_eq_some.mpr ⟨hpres, rfl⟩
  simp [byteAt, translate, hpt, hpte]

theorem check_mapped (h : exec (userMemCheck pgdir s len perm) p = (.ok 0, p')) (hend : s.toNat + len.toNat ≤ 0xFFFFF000)
    (hi : i < len.toNat) : (byteAt p.mem pgdir (s + BitVec.ofNat 32 i)).isSome = true := by
  have hround : (roundup (s + len) 4096).toNat = (s.toNat + len.toNat + 4095) / 4096 * 4096 := by
    rw [roundup_eq, BitVec.toNat_add]
    omega
  have hacc := ((userMemCheckLoop_answer ..).ok h).zero (a := s.toNat + i) (Nat.le_add_right ..)
    (by rw [hround]; omega)
  have haddr : BitVec.ofNat 32 (s.toNat + i) = s + BitVec.ofNat 32 i := by
    rw [BitVec.ofNat_add, ofNat_toNat]
  exact haddr ▸ byteAt_of_accessible hacc

/-- `sys_cputs` loads inside the range it has checked exactly if there is a `NUL` in it
(a null `s` is not loaded from at all; where the end of the range rounded up wraps, the
check passes without a look, and the first page that is not mapped stops the load). -/
theorem cputs_reads_checked_iff (hpass : Passes p pgdir s len) (hwrap : s.toNat + len.toNat < 2 ^ 32)
    (hlen : len.toNat < 2 ^ 31) :
    (∀ a ∈ cputsReads p.mem pgdir s len, s.toNat ≤ a.toNat ∧ a.toNat < s.toNat + len.toNat) ↔
      s = 0 ∨ ∃ i < len.toNat, byteAt p.mem pgdir (s + BitVec.ofNat 32 i) = some 0#8 ∨
        (0xFFFFF000 < s.toNat + len.toNat ∧ byteAt p.mem pgdir (s + BitVec.ofNat 32 i) = none) := by
  by_cases hs : s = 0
  · subst hs
    rw [cputsReads_null]
    simp
  have hmapped := fun i (hi : i < len.toNat) hend => check_mapped hpass hend hi
  generalize hmem : byteAt p.mem pgdir = mem at hmapped ⊢
  rw [cputsReads_eq hs hlen, hmem]
  have haddr : ∀ j ≤ len.toNat, (s + BitVec.ofNat 32 j).toNat = s.toNat + j := by
    intro j hj
    bv_omega
  constructor
  · intro h
    refine .inr ?_
    by_contra hno
    -- All characters of the range are there and not `NUL`, so the one after it is loaded.
    have hrun : Runs mem s len.toNat := by
      intro i hi
      cases hb : mem (s + BitVec.ofNat 32 i) with
      | none =>
        by_cases hend : s.toNat + len.toNat ≤ 0xFFFFF000
        · have hsome := hmapped i hi hend
          rw [hb] at hsome
          cases hsome
        · exact absurd ⟨i, hi, .inr ⟨Nat.lt_of_not_le hend, hb⟩⟩ hno
      | some b => exact ⟨b, rfl, fun h0 => hno ⟨i, hi, .inl (h0 ▸ hb)⟩⟩
    have hlast := (h _ (mem_fetched.2 ⟨len.toNat, Nat.lt_succ_self _, rfl, hrun⟩)).2
    rw [haddr _ (Nat.le_refl _)] at hlast
    exact Nat.lt_irrefl _ hlast
  · rintro (h0 | ⟨i, hi, hstop⟩) a ha
    · exact absurd h0 hs
    obtain ⟨j, hj, rfl, hrun⟩ := mem_fetched.1 ha
    have hji : j ≤ i := by
      by_contra hlt
      obtain ⟨b, hb, h0⟩ := hrun i (by omega)
      rcases hstop with hz | ⟨-, hn⟩
      · exact h0 (Option.some.inj (hb.symm.trans hz))
      · cases hb.symm.trans hn
    rw [haddr j (by omega)]
    omega

theorem npages_64 : 16384 ≤ 65536 := by decide

/-- A page of `A`s at `0x800000` that ends in `b`, the only one that is mapped; the page directory is page 1. -/
def onePage (b : BitVec 8) : Pmap where
  layout := ⟨16384, npages_64, 0, 0, 0⟩
  mem a := if a = 0x1008 then 0x07#8 else if a = 0x1009 then 0x20#8 else if a = 0x2000 then 0x07#8
    else if a = 0x2001 then 0x30#8 else if a = 0x3FFF then b else if a / 4096 = 3 then 0x41#8 else 0#8
  pages := fun _ => ⟨none, 0#16⟩
  pageFreeList := none
  userMemCheckAddr := 0#32
  uninit := 1

theorem cputs_returns_iff_page : (∃ t, exec (cputs (onePage 0).mem pgsize 0x800FFC#32 4#32) ⟨[], []⟩ = (.ok (), t)) ↔
    ∃ t, exec (readChars pgsize (charsRead 4#32) 0x800FFC#32) (onePage 0) = (.ok (), t) :=
  cputs_returns_iff (by decide) (by decide)

theorem onePage_passes (b : BitVec 8) : Passes (onePage b) pgsize 0x800FFC#32 4#32 := by
  have hdir : (onePage b).mem.read32 0x1008 = 0x2007#32 := by simp [onePage, Mem.read32]
  have hentry : (onePage b).mem.read32 0x2000 = 0x3007#32 := by simp [onePage, Mem.read32]
  have hwalk : exec (pgdirWalk pgsize 0x800FFC#32 false) (onePage b) = (.ok (some 0x2000), onePage b) := by
    rw [exec_pgdirWalk_false, show pgsize + 4 * pdx 0x800FFC#32 = 0x1008 by decide, hdir]
    rfl
  rw [Passes, userMemCheck, userMemCheckLoop, dif_pos (by decide), dif_neg (by decide), exec_bind_ok hwalk,
    exec_bind_ok (exec_load _), hentry, if_neg (by decide), userMemCheckLoop, dif_neg (by decide)]
  rfl

/-- The last four bytes of the page, the last of them a `NUL`. -/
theorem cputs_reads_checked_nul : Passes (onePage 0) pgsize 0x800FFC#32 4#32 ∧
    ∀ a ∈ cputsReads (onePage 0).mem pgsize 0x800FFC#32 4#32, 0x800FFC ≤ a.toNat ∧ a.toNat < 0x800FFC + 4 :=
  ⟨onePage_passes 0, (cputs_reads_checked_iff (onePage_passes 0) (by decide) (by decide)).mpr
    (.inr ⟨3, by decide, .inl (by decide)⟩)⟩

/-- Four `A`s at the end of the page: the next page is read, and is not there. -/
theorem cputs_leaves_page : Passes (onePage 0x41) pgsize 0x800FFC#32 4#32 ∧
    ¬ (∀ a ∈ cputsReads (onePage 0x41).mem pgsize 0x800FFC#32 4#32, 0x800FFC ≤ a.toNat ∧ a.toNat < 0x800FFC + 4) ∧
    byteAt (onePage 0x41).mem pgsize 0x801000#32 = none := by
  refine ⟨onePage_passes _, fun h => ?_, by decide⟩
  rw [cputsReads_eq (by decide) (by decide)] at h
  exact absurd (h 0x801000#32 (by decide)) (by decide)

end

end Jos.Printfmt
