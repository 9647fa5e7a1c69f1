import Xv6.Spec.Dir

/-! The calls of `sysfile.c` that use nothing of the calling process but its working
directory: `link`, `unlink`, `mkdir`, `mknod`, and the opening of a path. -/

namespace Xv6.Fs

open Wp

def beginOp : FsM Unit := modify fun s => { s.note .beginOp with tx := s.tx + 1, logged := [] }

def endOp : FsM Unit := modify fun s => { s.note .endOp with tx := s.tx - 1 }

/-- A string argument: none if it lies outside the memory of the process or does not
end within `MAXPATH` bytes. -/
def argstr (arg : Option (List UInt8)) : Option (List UInt8) :=
  match arg with
  | none => none
  | some bytes =>
    let path := bytes.takeWhile (· != 0)
    if path.length < MAXPATH then some path else none

variable (sb : Superblock)

section Create

/-- The end of `create` when an entry cannot be written: the new inode is freed again. -/
def createFail (ip dp : Ip) : FsM (Option Ip) := do
  setD ip fun d => { d with nlink := 0 }
  iupdate sb ip
  iunlockput sb ip
  iunlockput sb dp
  return none

/-- The entries `.` and `..` of a new directory. -/
def linkDots (ip dp : Ip) : FsM Bool := do
  let e ← getInode ip
  let r ← dirlink sb ip dot e.inum
  if r < 0 then return false
  else do
    let e ← getInode dp
    let r ← dirlink sb ip dotdot e.inum
    return ¬ r < 0

/-- `create` from the successful `ialloc` on. -/
def createNew (ip dp : Ip) (name : List UInt8) (type major minor : Int16) : FsM (Option Ip) := do
  ilock sb ip
  setD ip fun d => { d with major := major, minor := minor, nlink := 1 }
  iupdate sb ip
  let ok ← if type = T_DIR then linkDots sb ip dp else pure true
  if !ok then createFail sb ip dp
  else do
    let e ← getInode ip
    let r ← dirlink sb dp name e.inum
    if r < 0 then createFail sb ip dp
    else do
      if type = T_DIR then do
        setD dp fun d => { d with nlink := d.nlink + 1 }
        iupdate sb dp
      iunlockput sb dp
      return some ip

def create (cwd : Ip) (path : List UInt8) (type major minor : Int16) : FsM (Option Ip) := do
  match ← nameiparent sb cwd path with
  | none => return none
  | some (dp, name) => do
    ilock sb dp
    match ← dirlookup sb dp name with
    | some (ip, _) => do
      iunlockput sb dp
      ilock sb ip
      let e ← getInode ip
      if type = T_FILE ∧ (e.d.type = T_FILE ∨ e.d.type = T_DEVICE) then return some ip
      else do
        iunlockput sb ip
        return none
    | none => do
      let e ← getInode dp
      match ← ialloc sb e.dev type with
      | none => do
        iunlockput sb dp
        return none
      | some ip => createNew sb ip dp name type major minor

end Create

section Calls

/-- The middle of `sys_link`: the entry for the new name. -/
def linkName (cwd ip : Ip) (new : List UInt8) : FsM Bool := do
  match ← nameiparent sb cwd new with
  | none => return false
  | some (dp, name) => do
    ilock sb dp
    let ed ← getInode dp
    let ei ← getInode ip
    if ed.dev ≠ ei.dev then do
      iunlockput sb dp
      return false
    else do
      let r ← dirlink sb dp name ei.inum
      iunlockput sb dp
      return ¬ r < 0

/-- `sys_link` from `begin_op` on. -/
def link (cwd : Ip) (old new : List UInt8) : FsM ℤ := do
  beginOp
  match ← namei sb cwd old with
  | none => do
    endOp
    return -1
  | some ip => do
    ilock sb ip
    let e ← getInode ip
    if e.d.type = T_DIR then do
      iunlockput sb ip
      endOp
      return -1
    else do
      setD ip fun d => { d with nlink := d.nlink + 1 }
      iupdate sb ip
      iunlock ip
      let ok ← linkName sb cwd ip new
      if ok then do
        iput sb ip
        endOp
        return 0
      else do
        ilock sb ip
        setD ip fun d => { d with nlink := d.nlink - 1 }
        iupdate sb ip
        iunlockput sb ip
        endOp
        return -1

def sysLink (cwd : Ip) (old new : Option (List UInt8)) : FsM ℤ :=
  match argstr old, argstr new with
  | some old, some new => link sb cwd old new
  | _, _ => pure (-1)

/-- `sys_unlink` from the found and locked entry on: `ip` is entry `off` of `dp`. -/
def unlinkEntry (dp ip : Ip) (off : UInt32) : FsM ℤ := do
  let e ← getInode ip
  if e.d.nlink < 1 then panic "unlink: nlink < 1"
  else do
    let busy ← if e.d.type = T_DIR then do
        let empty ← isdirempty sb ip
        pure (!empty)
      else pure false
    if busy then do
      iunlockput sb ip
      iunlockput sb dp
      endOp
      return -1
    else do
      let r ← writei sb dp (.kernel (List.replicate DIRENT 0)) off 16
      if r ≠ DIRENT then panic "unlink: writei"
      else do
        let e ← getInode ip
        if e.d.type = T_DIR then do
          setD dp fun d => { d with nlink := d.nlink - 1 }
          iupdate sb dp
        iunlockput sb dp
        setD ip fun d => { d with nlink := d.nlink - 1 }
        iupdate sb ip
        iunlockput sb ip
        endOp
        return 0

/-- `sys_unlink` from `begin_op` on. -/
def unlink (cwd : Ip) (path : List UInt8) : FsM ℤ := do
  beginOp
  match ← nameiparent sb cwd path with
  | none => do
    endOp
    return -1
  | some (dp, name) => do
    ilock sb dp
    if namecmp name dot = 0 ∨ namecmp name dotdot = 0 then do
      iunlockput sb dp
      endOp
      return -1
    else
      match ← dirlookup sb dp name with
      | none => do
        iunlockput sb dp
        endOp
        return -1
      | some (ip, off) => do
        ilock sb ip
        unlinkEntry sb dp ip off

def sysUnlink (cwd : Ip) (path : Option (List UInt8)) : FsM ℤ :=
  match argstr path with
  | some path => unlink sb cwd path
  | none => pure (-1)

/-- `sys_mkdir` and `sys_mknod`: create the inode and let go of it. -/
def mknodType (cwd : Ip) (path : Option (List UInt8)) (type major minor : Int16) : FsM ℤ := do
  beginOp
  match argstr path with
  | none => do
    endOp
    return -1
  | some path => do
    match ← create sb cwd path type major minor with
    | none => do
      endOp
      return -1
    | some ip => do
      iunlockput sb ip
      endOp
      return 0

def sysMkdir (cwd : Ip) (path : Option (List UInt8)) : FsM ℤ := mknodType sb cwd path T_DIR 0 0

def sysMknod (cwd : Ip) (path : Option (List UInt8)) (major minor : Int16) : FsM ℤ :=
  mknodType sb cwd path T_DEVICE major minor

end Calls

end Xv6.Fs
