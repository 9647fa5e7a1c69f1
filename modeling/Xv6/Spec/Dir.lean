import Xv6.Spec.Inode

/-! Directories and path names of `fs.c`. A path is the bytes of a C string without
the final zero; `cwd` is the working directory of the calling process. -/

namespace Xv6.Fs

open Bytes Wp

section Names

/-- A C string is read as if zeros followed it. -/
def strncmp : ℕ → List UInt8 → List UInt8 → ℤ
  | 0, _, _ => 0
  | n + 1, p, q =>
    if p.headD 0 ≠ 0 ∧ p.headD 0 = q.headD 0 then strncmp n p.tail q.tail
    else (p.headD 0).toNat - (q.headD 0).toNat

def strncpy : ℕ → List UInt8 → List UInt8
  | 0, _ => []
  | n + 1, t => if t.headD 0 = 0 then List.replicate (n + 1) 0 else t.headD 0 :: strncpy n t.tail

def namecmp (s t : List UInt8) : ℤ := strncmp DIRSIZ s t

def dot : List UInt8 := [46]
def dotdot : List UInt8 := [46, 46]

abbrev slash : UInt8 := 47

/-- The next element of `path`, cut to `DIRSIZ` bytes, and the path after it. -/
def skipelem (path : List UInt8) : Option (List UInt8 × List UInt8) :=
  let path := path.dropWhile (· == slash)
  if path = [] then none
  else some ((path.takeWhile (· != slash)).take DIRSIZ, (path.dropWhile (· != slash)).dropWhile (· == slash))

end Names

variable (sb : Superblock)

section Dir

/-- The loop of `dirlookup` from `off` on, `n` passes at most: the inode and `*poff`. -/
def dirlookupFrom (dp : Ip) (name : List UInt8) : ℕ → UInt32 → FsM (Option (Ip × UInt32))
  | 0, _ => pure none
  | n + 1, off => do
    let e ← getInode dp
    if off < e.d.size then do
      let (r, bytes) ← readi sb dp .kernel off 16
      if r ≠ DIRENT then panic "dirlookup read"
      else
        let de := Dirent.decode bytes
        if de.inum = 0 then dirlookupFrom dp name n (off + 16)
        else if namecmp name de.name = 0 then do
          let ip ← iget e.dev de.inum.toNat
          return some (ip, off)
        else dirlookupFrom dp name n (off + 16)
    else pure none

def dirlookup (dp : Ip) (name : List UInt8) : FsM (Option (Ip × UInt32)) := do
  let e ← getInode dp
  if e.d.type ≠ T_DIR then panic "dirlookup not DIR"
  else dirlookupFrom sb dp name (e.d.size.toNat / DIRENT + 1) 0

/-- The loop of `dirlink` from `off` on: the offset of the first empty entry, or the end. -/
def emptyFrom (dp : Ip) : ℕ → UInt32 → FsM UInt32
  | 0, off => pure off
  | n + 1, off => do
    let e ← getInode dp
    if off < e.d.size then do
      let (r, bytes) ← readi sb dp .kernel off 16
      if r ≠ DIRENT then panic "dirlink read"
      else if (Dirent.decode bytes).inum = 0 then pure off
      else emptyFrom dp n (off + 16)
    else pure off

def dirlink (dp : Ip) (name : List UInt8) (inum : ℕ) : FsM ℤ := do
  match ← dirlookup sb dp name with
  | some (ip, _) => do
    iput sb ip
    return -1
  | none => do
    let e ← getInode dp
    let off ← emptyFrom sb dp (e.d.size.toNat / DIRENT + 1) 0
    let de : Dirent := ⟨UInt16.ofNat inum, strncpy DIRSIZ name⟩
    let r ← writei sb dp (.kernel de.encode) off 16
    if r ≠ DIRENT then return -1 else return 0

/-- The loop of `isdirempty` from `off` on. -/
def isdiremptyFrom (dp : Ip) : ℕ → UInt32 → FsM Bool
  | 0, _ => pure true
  | n + 1, off => do
    let e ← getInode dp
    if off < e.d.size then do
      let (r, bytes) ← readi sb dp .kernel off 16
      if r ≠ DIRENT then panic "isdirempty: readi"
      else if (Dirent.decode bytes).inum ≠ 0 then pure false
      else isdiremptyFrom dp n (off + 16)
    else pure true

def isdirempty (dp : Ip) : FsM Bool := do
  let e ← getInode dp
  isdiremptyFrom sb dp (e.d.size.toNat / DIRENT + 1) 32

end Dir

section Paths

/-- The loop of `namex`, at most one pass for each byte of the path. -/
def namexFrom (nameiparent : Bool) : ℕ → Ip → List UInt8 → List UInt8 → FsM (Option (Ip × List UInt8))
  | 0, _, _, _ => pure none
  | n + 1, ip, path, name =>
    match skipelem path with
    | none =>
      if nameiparent then do
        iput sb ip
        return none
      else return some (ip, name)
    | some (name, path) => do
      ilock sb ip
      let e ← getInode ip
      if e.d.type ≠ T_DIR then do
        iunlockput sb ip
        return none
      else if nameiparent ∧ path = [] then do
        -- stop one level early
        iunlock ip
        return some (ip, name)
      else
        match ← dirlookup sb ip name with
        | none => do
          iunlockput sb ip
          return none
        | some (next, _) => do
          iunlockput sb ip
          namexFrom nameiparent n next path name

def namex (cwd : Ip) (path : List UInt8) (nameiparent : Bool) : FsM (Option (Ip × List UInt8)) := do
  let ip ← if path.head? = some slash then iget ROOTDEV ROOTINO else idup cwd
  namexFrom sb nameiparent (path.length + 1) ip path []

def namei (cwd : Ip) (path : List UInt8) : FsM (Option Ip) := do
  match ← namex sb cwd path false with
  | some (ip, _) => return some ip
  | none => return none

def nameiparent (cwd : Ip) (path : List UInt8) : FsM (Option (Ip × List UInt8)) := namex sb cwd path true

end Paths

end Xv6.Fs
