import Xv6.Lib.Machine
import Xv6.Spec.Exec

/-! The file system calls of `sysfile.c` over the file table of `file.c` and the
processes' descriptors and working directories. Each call runs to its end before the
next one starts. Pipes are left out: no call here makes one. -/

namespace Xv6.Fs

open Machine Wp

abbrev O_RDONLY : UInt32 := 0x000
abbrev O_WRONLY : UInt32 := 0x001
abbrev O_RDWR : UInt32 := 0x002
abbrev O_CREATE : UInt32 := 0x200
abbrev O_TRUNC : UInt32 := 0x400

inductive FdType where
  | none
  | inode
  | device
  deriving DecidableEq

/-- `struct file`. -/
structure File where
  type : FdType
  ref : ℕ
  readable : Bool
  writable : Bool
  ip : Ip
  off : UInt32
  major : Int16

abbrev Fd := Fin NOFILE
abbrev FileIx := Fin NFILE
abbrev Pid := Fin NPROC

/-- The part of `struct proc` the file system uses; `cwd` is zero once the process has exited. -/
structure Proc where
  cwd : Option Ip
  ofile : Fd → Option FileIx

structure Sys where
  fs : State
  ftable : FileIx → File
  procs : Pid → Proc

abbrev SysM := StateT Sys (Except Stop)

/-- Run a part of the file system proper. -/
def liftFs {α : Type} (m : FsM α) : SysM α := fun σ =>
  match m σ.fs with
  | .ok (a, s) => .ok (a, { σ with fs := s })
  | .error e => .error e

/-- The process that must not exit. -/
abbrev initproc : Pid := 0

def getFile (f : FileIx) : SysM File := do return (← get).ftable f

def setFile (f : FileIx) (file : File) : SysM Unit :=
  modify fun σ => { σ with ftable := Function.update σ.ftable f file }

def getProc (p : Pid) : SysM Proc := do return (← get).procs p

def setProc (p : Pid) (proc : Proc) : SysM Unit :=
  modify fun σ => { σ with procs := Function.update σ.procs p proc }

section File

def filealloc : SysM (Option FileIx) := do
  let σ ← get
  match (List.finRange NFILE).find? fun f => (σ.ftable f).ref == 0 with
  | some f => do
    setFile f { σ.ftable f with ref := 1 }
    return some f
  | none => return none

def fdalloc (p : Pid) (f : FileIx) : SysM (Option Fd) := do
  let proc ← getProc p
  match (List.finRange NOFILE).find? fun fd => (proc.ofile fd).isNone with
  | some fd => do
    setProc p { proc with ofile := Function.update proc.ofile fd (some f) }
    return some fd
  | none => return none

variable (sb : Superblock)

def fileclose (f : FileIx) : SysM Unit := do
  let ff ← getFile f
  if ff.ref < 1 then throw (.panic "fileclose")
  else if 0 < ff.ref - 1 then setFile f { ff with ref := ff.ref - 1 }
  else do
    setFile f { ff with ref := 0, type := .none }
    if ff.type = .inode ∨ ff.type = .device then do
      liftFs beginOp
      liftFs (iput sb ff.ip)
      liftFs endOp

def filedup (f : FileIx) : SysM FileIx := do
  let ff ← getFile f
  if ff.ref < 1 then throw (.panic "filedup")
  else do
    setFile f { ff with ref := ff.ref + 1 }
    return f

/-- `struct stat`. -/
structure Stat where
  dev : ℕ
  ino : ℕ
  type : Int16
  nlink : Int16
  size : UInt32

def stati (e : Inode) : Stat := ⟨e.dev, e.inum, e.d.type, e.d.nlink, e.d.size⟩

/-- `filestat`; `mapped` tells whether the user's buffer can be written. -/
def filestat (f : FileIx) (mapped : Bool) : SysM (Option Stat) := do
  let ff ← getFile f
  if ff.type = .inode ∨ ff.type = .device then do
    liftFs (ilock sb ff.ip)
    let e ← liftFs (getInode ff.ip)
    liftFs (iunlock ff.ip)
    return if mapped then some (stati e) else none
  else return none

/-- `fileread`: the value returned and the bytes copied out. `n` is unsigned, as `readi` takes it, and `got`
is what the driver of a device returns. -/
def fileread (f : FileIx) (dst : Dst) (n : UInt32) (got : ℤ) : SysM (ℤ × List UInt8) := do
  let ff ← getFile f
  if !ff.readable then return (-1, [])
  else match ff.type with
    | .device => if ff.major < 0 ∨ Int16.ofNat NDEV ≤ ff.major then return (-1, []) else return (got, [])
    | .inode => do
      liftFs (ilock sb ff.ip)
      let (r, bytes) ← liftFs (readi sb ff.ip dst ff.off n)
      if 0 < r then setFile f { ff with off := ff.off + UInt32.ofNat r.toNat }
      liftFs (iunlock ff.ip)
      return (r, bytes)
    | .none => throw (.panic "fileread")

/-- `((MAXOPBLOCKS-1-1-2) / 2) * BSIZE`. -/
abbrev maxWrite : ℕ := (MAXOPBLOCKS - 1 - 1 - 2) / 2 * BSIZE

/-- The source from byte `i` on. -/
def Src.from (src : Src) (i : ℕ) : Src :=
  match src with
  | .kernel bytes => .kernel (bytes.drop i)
  | .user mem => .user fun t => mem (i + t)

/-- The loop of `filewrite` from byte `i` on, `k` passes at most: the bytes written. -/
def filewriteFrom (f : FileIx) (src : Src) (n : ℕ) : ℕ → ℕ → SysM ℕ
  | 0, i => pure i
  | k + 1, i =>
    if i < n then do
      let n1 := min (n - i) maxWrite
      liftFs beginOp
      let ff ← getFile f
      liftFs (ilock sb ff.ip)
      let r ← liftFs (writei sb ff.ip (src.from i) ff.off (UInt32.ofNat n1))
      if 0 < r then setFile f { ff with off := ff.off + UInt32.ofNat r.toNat }
      liftFs (iunlock ff.ip)
      liftFs endOp
      if r ≠ n1 then return i else filewriteFrom f src n k (i + n1)
    else return i

/-- A device writes what it is given; only its number is checked here. -/
def filewrite (f : FileIx) (src : Src) (n : ℤ) : SysM ℤ := do
  let ff ← getFile f
  if !ff.writable then return -1
  else match ff.type with
    | .device => if ff.major < 0 ∨ Int16.ofNat NDEV ≤ ff.major then return -1 else return n
    | .inode => do
      let i ← filewriteFrom sb f src n.toNat n.toNat 0
      return if (i : ℤ) = n then n else -1
    | .none => throw (.panic "filewrite")

end File

variable (sb : Superblock)

section Calls

def isSet (omode flag : UInt32) : Bool := omode &&& flag != 0

/-- The first half of `sys_open`: the inode at `path`, created if asked for, locked. -/
def openInode (cwd : Ip) (path : List UInt8) (omode : UInt32) : FsM (Option Ip) := do
  if isSet omode O_CREATE then create sb cwd path T_FILE 0 0
  else
    match ← namei sb cwd path with
    | none => return none
    | some ip => do
      ilock sb ip
      let e ← getInode ip
      if e.d.type = T_DIR ∧ omode ≠ O_RDONLY then do
        iunlockput sb ip
        return none
      else return some ip

/-- The second half of `sys_open`: a file and a descriptor for the locked inode `ip`. -/
def openFile (p : Pid) (ip : Ip) (omode : UInt32) : SysM ℤ := do
  let e ← liftFs (getInode ip)
  if e.d.type = T_DEVICE ∧ (e.d.major < 0 ∨ Int16.ofNat NDEV ≤ e.d.major) then do
    liftFs (iunlockput sb ip)
    liftFs endOp
    return -1
  else
    match ← filealloc with
    | none => do
      liftFs (iunlockput sb ip)
      liftFs endOp
      return -1
    | some f =>
      match ← fdalloc p f with
      | none => do
        fileclose sb f
        liftFs (iunlockput sb ip)
        liftFs endOp
        return -1
      | some fd => do
        let ff ← getFile f
        let ff := if e.d.type = T_DEVICE then { ff with type := .device, major := e.d.major }
          else { ff with type := .inode, off := 0 }
        setFile f { ff with
          ip := ip
          readable := !isSet omode O_WRONLY
          writable := isSet omode O_WRONLY || isSet omode O_RDWR }
        if isSet omode O_TRUNC ∧ e.d.type = T_FILE then liftFs (itrunc sb ip)
        liftFs (iunlock ip)
        liftFs endOp
        return fd.val

def sysOpen (p : Pid) (cwd : Ip) (path : Option (List UInt8)) (omode : UInt32) : SysM ℤ :=
  match argstr path with
  | none => pure (-1)
  | some path => do
    liftFs beginOp
    match ← liftFs (openInode sb cwd path omode) with
    | none => do
      liftFs endOp
      return -1
    | some ip => openFile sb p ip omode

def sysChdir (p : Pid) (cwd : Ip) (path : Option (List UInt8)) : SysM ℤ := do
  liftFs beginOp
  match argstr path with
  | none => do
    liftFs endOp
    return -1
  | some path =>
    match ← liftFs (namei sb cwd path) with
    | none => do
      liftFs endOp
      return -1
    | some ip => do
      liftFs (ilock sb ip)
      let e ← liftFs (getInode ip)
      if e.d.type ≠ T_DIR then do
        liftFs (iunlockput sb ip)
        liftFs endOp
        return -1
      else do
        liftFs (iunlock ip)
        liftFs (iput sb cwd)
        liftFs endOp
        let proc ← getProc p
        setProc p { proc with cwd := some ip }
        return 0

/-- `argfd`: the file behind descriptor `fd` of process `p`. -/
def argfd (p : Pid) (fd : ℤ) : SysM (Option (Fd × FileIx)) := do
  let proc ← getProc p
  if h : 0 ≤ fd ∧ fd.toNat < NOFILE then
    match proc.ofile ⟨fd.toNat, h.2⟩ with
    | some f => return some (⟨fd.toNat, h.2⟩, f)
    | none => return none
  else return none

def setOfile (p : Pid) (fd : Fd) (f : Option FileIx) : SysM Unit := do
  let proc ← getProc p
  setProc p { proc with ofile := Function.update proc.ofile fd f }

def sysDup (p : Pid) (fd : ℤ) : SysM ℤ := do
  match ← argfd p fd with
  | none => return -1
  | some (_, f) =>
    match ← fdalloc p f with
    | none => return -1
    | some fd => do
      let _ ← filedup f
      return fd.val

def sysRead (p : Pid) (fd : ℤ) (dst : Dst) (n : UInt32) (got : ℤ) : SysM (ℤ × List UInt8) := do
  match ← argfd p fd with
  | none => return (-1, [])
  | some (_, f) => fileread sb f dst n got

def sysFstat (p : Pid) (fd : ℤ) (mapped : Bool) : SysM (Option Stat) := do
  match ← argfd p fd with
  | none => return none
  | some (_, f) => filestat sb f mapped

def sysWrite (p : Pid) (fd : ℤ) (mem : ℕ → Option UInt8) (n : ℤ) : SysM ℤ := do
  match ← argfd p fd with
  | none => return -1
  | some (_, f) => filewrite sb f (.user mem) n

def sysClose (p : Pid) (fd : ℤ) : SysM ℤ := do
  match ← argfd p fd with
  | none => return -1
  | some (fd, f) => do
    setOfile p fd none
    fileclose sb f
    return 0

/-- One pass of the loop of `kfork` over the descriptors. -/
def forkFile (p np : Pid) (fd : Fd) : SysM Unit := do
  let proc ← getProc p
  match proc.ofile fd with
  | none => return
  | some f => do
    let f ← filedup f
    setOfile np fd (some f)

/-- What `kfork` does once `allocproc` has found slot `np` and the memory is copied. -/
def kfork (p np : Pid) (cwd : Ip) : SysM Unit := do
  repeatFrom (fun fd => forkFile p np (Fin.ofNat NOFILE fd)) NOFILE 0
  let ip ← liftFs (idup cwd)
  let proc ← getProc np
  setProc np { proc with cwd := some ip }

/-- One pass of the loop of `kexit`. -/
def exitClose (p : Pid) (fd : Fd) : SysM Unit := do
  let proc ← getProc p
  match proc.ofile fd with
  | none => return
  | some f => do
    fileclose sb f
    setOfile p fd none

def kexit (p : Pid) (cwd : Ip) : SysM Unit := do
  if p = initproc then throw (.panic "init exiting")
  else do
    repeatFrom (fun fd => exitClose sb p (Fin.ofNat NOFILE fd)) NOFILE 0
    liftFs beginOp
    liftFs (iput sb cwd)
    liftFs endOp
    let proc ← getProc p
    setProc p { proc with cwd := none }

end Calls

section Run

/-- The first process has the root as working directory; there are no files yet. -/
def Sys.start (s : State) : Sys where
  fs := s
  ftable := fun _ => ⟨.none, 0, false, false, 0, 0, 0⟩
  procs := fun p => ⟨if p = initproc then some 0 else none, fun _ => none⟩

inductive Call where
  | open (p : Pid) (path : Option (List UInt8)) (omode : UInt32)
  | mkdir (p : Pid) (path : Option (List UInt8))
  | mknod (p : Pid) (path : Option (List UInt8)) (major minor : Int16)
  | link (p : Pid) (old new : Option (List UInt8))
  | unlink (p : Pid) (path : Option (List UInt8))
  | chdir (p : Pid) (path : Option (List UInt8))
  | exec (p : Pid) (path : Option (List UInt8)) (mem : ExecMem)
  | read (p : Pid) (fd : ℤ) (dst : Dst) (n : UInt32) (got : ℤ)
  | fstat (p : Pid) (fd : ℤ) (mapped : Bool)
  | write (p : Pid) (fd : ℤ) (mem : ℕ → Option UInt8) (n : ℤ)
  | dup (p : Pid) (fd : ℤ)
  | close (p : Pid) (fd : ℤ)
  | fork (p np : Pid)
  | exit (p : Pid)

def Call.pid : Call → Pid
  | .open p _ _ | .mkdir p _ | .mknod p _ _ _ | .link p _ _ | .unlink p _ | .chdir p _ | .exec p _ _ | .read p _ _ _ _
  | .fstat p _ _ | .write p _ _ _ | .dup p _ | .close p _ | .fork p _ | .exit p => p

/-- The process that a call makes must be one that is not in use. -/
def Call.enabled (σ : Sys) : Call → Prop
  | .fork _ np => (σ.procs np).cwd = none
  | _ => True

instance (σ : Sys) (c : Call) : Decidable (c.enabled σ) := by
  cases c <;> unfold Call.enabled <;> infer_instance

/-- The call, made by a process with working directory `cwd`. -/
def Call.run (cwd : Ip) : Call → SysM ℤ
  | .open p path omode => sysOpen sb p cwd path omode
  | .mkdir _ path => liftFs (sysMkdir sb cwd path)
  | .mknod _ path major minor => liftFs (sysMknod sb cwd path major minor)
  | .link _ old new => liftFs (sysLink sb cwd old new)
  | .unlink _ path => liftFs (sysUnlink sb cwd path)
  | .chdir p path => sysChdir sb p cwd path
  | .exec _ path mem => liftFs (sysExec sb cwd path mem)
  | .read p fd dst n got => do
    let (r, _) ← sysRead sb p fd dst n got
    return r
  | .fstat p fd mapped => do
    let st ← sysFstat sb p fd mapped
    return if st.isSome then 0 else -1
  | .write p fd mem n => sysWrite sb p fd mem n
  | .dup p fd => sysDup p fd
  | .close p fd => sysClose sb p fd
  | .fork p np => do
    kfork p np cwd
    return np.val
  | .exit p => do
    kexit sb p cwd
    return 0

/-- One complete call of a process that has not exited. -/
def sysStep (c : Call) (σ : Sys) : Outcome Sys :=
  match (σ.procs c.pid).cwd with
  | none => .blocked
  | some cwd =>
    if c.enabled σ then
      match (c.run sb cwd) σ with
      | .ok (_, σ') => .ok σ'
      | .error (.panic msg) => .panic msg
      | .error .hang => .blocked
    else .blocked

end Run

end Xv6.Fs
