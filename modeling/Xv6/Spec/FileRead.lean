import Xv6.Spec.Console
import Xv6.Spec.Dir
import Xv6.Spec.Pipe
import Xv6.Spec.Vm

/-! `fileread` and the three readers behind it, with the copies to the memory of the calling process. Where a reader
sleeps the others run, and change what they like. -/

namespace Xv6.Read

open Wp Fs Vm

def CONSOLE : Int16 := 1

/-- The file system, the memory, the pipe that the file is an end of, and the console. -/
structure St where
  fs : Fs.State
  m : Mem
  pipe : Pipe
  cons : Console.Cons

/-- Why a read does not return. -/
inductive Stop where
  | fs (e : Fs.Stop)
  | panic (msg : String)
  deriving DecidableEq

abbrev M := StateT St (Except Stop)

def file {α : Type} (m : FsM α) : M α := fun σ =>
  match m σ.fs with
  | .ok (a, s) => .ok (a, { σ with fs := s })
  | .error e => .error (.fs e)

def user {α : Type} (m : VmM α) : M α := fun σ =>
  match m σ.m with
  | .ok (a, s) => .ok (a, { σ with m := s })
  | .error msg => .error (.panic msg)

/-- What the others do until the call runs again, and whether it has been killed by then. -/
structure Nap where
  others : St → St
  killed : Bool

/-- The value that a call returns. `failed` says that it has come to its end at a copy that has failed, which the kernel
does not tell. -/
structure Ended where
  ret : ℤ
  failed : Bool

variable (K : Kernel) (r sz : ℕ)

/-- `either_copyout` to the user: `r` and `sz` are the page table and the size of the process. -/
def eitherCopyout (dst : ℕ) (src : List UInt8) : M Bool := user (copyout K r sz r dst src)

section Pipe

/-- The copying loop of `piperead` from byte `i` on, `k` passes at most. `c` is the number of the call. -/
def pipeCopy (addr : UInt64) (n : ℤ) (c : ℕ) : ℕ → ℕ → M Ended
  | 0, i => pure ⟨i, false⟩
  | k + 1, i => do
    if (i : ℤ) < n then
      let σ ← get
      if σ.pipe.empty then pure ⟨i, false⟩
      else
        let ch := σ.pipe.data (σ.pipe.nread.toNat % PIPESIZE)
        set { σ with pipe := σ.pipe.take c }
        if ← eitherCopyout K r sz ((addr.toNat + i) % 2 ^ 64) [ch] then pipeCopy addr n c k (i + 1)
        else pure ⟨i, true⟩
    else pure ⟨i, false⟩

/-- `piperead` up to its next `sleep`, or to its end. -/
def pipereadOnce (addr : UInt64) (n : ℤ) (killed : Bool) : M (Option Ended) := do
  let σ ← get
  if σ.pipe.empty ∧ σ.pipe.writeopen = true then
    return if killed then some ⟨-1, false⟩ else none
  else
    set { σ with pipe := { σ.pipe with reads := σ.pipe.reads + 1 } }
    return some (← pipeCopy K r sz addr n σ.pipe.reads n.toNat 0)

/-- The call as far as it gets with these naps; the first one is the wait for the lock. -/
def piperead (addr : UInt64) (n : ℤ) : List Nap → M (Option Ended)
  | [] => pure none
  | nap :: naps => do
    modify nap.others
    match ← pipereadOnce K r sz addr n nap.killed with
    | some e => return some e
    | none => piperead addr n naps

end Pipe

section Console

open Console (INPUT_BUF_SIZE ctrl newline)

/-- The variables of `consoleread`, with the bytes that it has copied out and those that it has taken from the
buffer. -/
structure Reader where
  target : BitVec 32
  n : BitVec 32
  dst : ℕ
  got : List UInt8
  taken : List UInt8

def Reader.ret (rd : Reader) : ℤ := (rd.target - rd.n).toInt

/-- The loop of `consoleread` up to the next `sleep` or to the end, `k` passes at most. -/
def readLoop (killed : Bool) : ℕ → Reader → M (Reader × Option Ended)
  | 0, rd => pure (rd, some ⟨rd.ret, false⟩)
  | k + 1, rd => do
    if 0 < rd.n.toInt then
      let σ ← get
      if σ.cons.r = σ.cons.w then
        return (rd, if killed then some ⟨-1, false⟩ else none)
      else
        let c := σ.cons.buf (σ.cons.r.toNat % INPUT_BUF_SIZE)
        if c = ctrl 'D' then
          if rd.n.toNat < rd.target.toNat then
            -- save ^D for next time: `cons.r++`, and `cons.r--`
            set { σ with cons := { σ.cons with r := σ.cons.r + 1 - 1 } }
            return (rd, some ⟨rd.ret, false⟩)
          else
            set { σ with cons := { σ.cons with r := σ.cons.r + 1 } }
            return ({ rd with taken := rd.taken ++ [c] }, some ⟨rd.ret, false⟩)
        else
          set { σ with cons := { σ.cons with r := σ.cons.r + 1 } }
          let rd := { rd with taken := rd.taken ++ [c] }
          if ← eitherCopyout K r sz rd.dst [c] then
            let rd := { rd with n := rd.n - 1, dst := (rd.dst + 1) % 2 ^ 64, got := rd.got ++ [c] }
            if c = newline then return (rd, some ⟨rd.ret, false⟩) else readLoop killed k rd
          else return (rd, some ⟨rd.ret, true⟩)
    else return (rd, some ⟨rd.ret, false⟩)

def consolereadFrom : List Nap → Reader → M (Reader × Option Ended)
  | [], rd => pure (rd, none)
  | nap :: naps, rd => do
    modify nap.others
    let (rd, e) ← readLoop K r sz nap.killed rd.n.toNat rd
    if e.isSome then return (rd, e) else consolereadFrom naps rd

def consoleread (addr : UInt64) (n : BitVec 32) (naps : List Nap) : M (Reader × Option Ended) :=
  consolereadFrom K r sz naps ⟨n, n, addr.toNat, [], []⟩

end Console

section Inode

variable (sb : Superblock)

/-- The loop of `readi` with a user address, `k` passes at most. -/
def readiFrom (ip : Ip) (n : ℕ) : ℕ → ℕ → ℕ → ℕ → M ℤ
  | 0, tot, _, _ => pure tot
  | k + 1, tot, off, dst => do
    if tot < n then
      let addr ← file (bmap sb ip (off / BSIZE))
      if addr = 0 then pure tot
      else
        let bp ← file (bread addr.toNat)
        let m := min (n - tot) (BSIZE - off % BSIZE)
        if ← eitherCopyout K r sz dst (bp.slice (off % BSIZE) m) then
          readiFrom ip n k (tot + m) (off + m) ((dst + m) % 2 ^ 64)
        else pure (-1)
    else pure tot

def readi (ip : Ip) (dst : UInt64) (off n : UInt32) : M ℤ := do
  let e ← file (getInode ip)
  if off > e.d.size ∨ off + n < off then return 0
  else
    let n := if off + n > e.d.size then e.d.size - off else n
    readiFrom K r sz sb ip n.toNat n.toNat 0 off.toNat dst.toNat

end Inode

/-- `f->type`, with what goes with it. -/
inductive Kind where
  | none
  | pipe
  | device (major : Int16)
  | inode (ip : Ip) (off : UInt32)

structure File where
  readable : Bool
  kind : Kind

/-- The value returned, if the call returns with these naps, and the file. -/
def fileread (sb : Superblock) (f : File) (addr : UInt64) (n : BitVec 32) (naps : List Nap) : M (Option ℤ × File) := do
  if !f.readable then return (some (-1), f)
  else
    match f.kind with
    | .pipe => return ((← piperead K r sz addr n.toInt naps).map Ended.ret, f)
    | .device major =>
      -- `devsw` has a `read` for the console only
      if major < 0 ∨ Int16.ofNat NDEV ≤ major ∨ major ≠ CONSOLE then return (some (-1), f)
      else return ((← consoleread K r sz addr n naps).2.map Ended.ret, f)
    | .inode ip off =>
      match naps with
      | [] => return (none, f)
      | nap :: _ =>
        modify nap.others
        file (ilock sb ip)
        let ret ← readi K r sz sb ip addr off (UInt32.ofBitVec n)
        let f := if 0 < ret then { f with kind := .inode ip (off + UInt32.ofNat ret.toNat) } else f
        file (iunlock ip)
        return (some ret, f)
    | .none => throw (.panic "fileread")

end Xv6.Read
