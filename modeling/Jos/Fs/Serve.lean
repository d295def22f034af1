import Jos.Fs.File

/-!
# The file server (`fs/serv.c`)

A request is served with its page mapped at `fsreq`, one page below the disk.
The `Fd` page of an open file is shared with its clients, who change its seek
position and its reference count between requests. `o_mode` and the other
fields of the `Fd` page are written and never read by the server.
-/

namespace Jos.Fs

open Lib

def maxopen : Nat := 1024
def fsreq : Nat := 0x0FFFF000

-- `union Fsipc`: every request but `open` starts with the file id.
def reqFileid : Nat := fsreq
def reqN : Nat := fsreq + 4
def reqSize : Nat := fsreq + 4
def reqBuf : Nat := fsreq + 8
def retBuf : Nat := fsreq
def reqOmode : Nat := fsreq + maxpathlen

def oCreat : Word := 0x100#32
def oTrunc : Word := 0x200#32
def oExcl : Word := 0x400#32

def setOpen (i : Nat) (f : OpenFile → OpenFile) : FsM Unit :=
  modify fun s => { s with opentab := fun j => if j = i then f (s.opentab i) else s.opentab j }

/-- An entry whose `Fd` page no client maps; the page is allocated if need be. -/
def openfileAlloc : FsM (Except Int Nat) := do
  let tab := (← get).opentab
  match (List.range maxopen).find? fun i => (tab i).fdRef ≤ 1 with
  | none => return .error (-eMaxOpen)
  | some i =>
    setOpen i fun o => { o with fileid := o.fileid + 1024#32, fdOffset := 0, fdRef := 1 }
    return .ok i

def openfileLookup (fileid : Word) : FsM (Except Int Nat) := do
  let i := fileid.toNat % maxopen
  let o := (← get).opentab i
  if o.fdRef ≤ 1 ∨ o.fileid ≠ fileid then
    return .error (-eInval)
  return .ok i

/-- The path in the request page, cut at `MAXPATHLEN - 1` bytes. -/
def reqPath (m : Mem) : Name :=
  ((List.range (maxpathlen - 1)).map fun i => m (fsreq + i)).takeWhile (· ≠ 0)

def openPath (path : Name) (omode : Word) : FsM (Except Int Nat) := do
  if omode &&& oCreat ≠ 0 then
    match ← fileCreate path with
    | .ok f => return .ok f
    | .error r =>
      if omode &&& oExcl = 0 ∧ r = -eFileExists then
        fileOpen path
      else
        return .error r
  else
    fileOpen path

/-- The return value, and on success the entry whose `Fd` page goes to the client. -/
def serveOpen : FsM (Int × Option Nat) := do
  let path := reqPath (← get).mem
  match ← openfileAlloc with
  | .error r => return (r, none)
  | .ok i =>
    -- The new file id is an `int` and must not be negative.
    let fileid := ((← get).opentab i).fileid.toInt
    if fileid < 0 then
      return (fileid, none)
    let omode ← load reqOmode
    match ← openPath path omode with
    | .error r => return (r, none)
    | .ok f =>
      if omode &&& oTrunc ≠ 0 then
        let _ ← fileSetSize f 0
      match ← fileOpen path with
      | .error r => return (r, none)
      | .ok f =>
        setOpen i fun o => { o with file := f }
        return (0, some i)

def serveSetSize : FsM Int := do
  match ← openfileLookup (← load reqFileid) with
  | .error r => return r
  | .ok i => fileSetSize ((← get).opentab i).file (← load reqSize)

def advance (i : Nat) (r : Int) : FsM Int := do
  if 0 ≤ r then
    setOpen i fun o => { o with fdOffset := o.fdOffset + BitVec.ofInt 32 r }
  return r

def serveRead : FsM Int := do
  match ← openfileLookup (← load reqFileid) with
  | .error _ => return -eInval
  | .ok i =>
    let o := (← get).opentab i
    advance i (← fileRead o.file retBuf (← load reqN) o.fdOffset)

def serveWrite : FsM Int := do
  match ← openfileLookup (← load reqFileid) with
  | .error _ => return -eInval
  | .ok i =>
    let o := (← get).opentab i
    advance i (← fileWrite o.file reqBuf (← load reqN) o.fdOffset)

def serveFlush : FsM Int := do
  match ← openfileLookup (← load reqFileid) with
  | .error r => return r
  | .ok i =>
    fileFlush ((← get).opentab i).file
    return 0

inductive Request where
  | open
  | setSize
  | read
  | write
  | flush
deriving DecidableEq

/-- What `serve` does for a request, and what it sends back. -/
def Request.serve : Request → FsM (Int × Option Nat)
  | .open => serveOpen
  | .setSize => do return (← serveSetSize, none)
  | .read => do return (← serveRead, none)
  | .write => do return (← serveWrite, none)
  | .flush => do return (← serveFlush, none)

end Jos.Fs
