import Xv6.Spec.Sysfile

/-! `filewrite` calls that run side by side on one `struct file`. A call takes its steps between those of the others;
`ilock` waits while another call has the inode. -/

namespace Xv6.Fs

open Machine

/-- Where a call of `filewrite` is: before it, at the top of its loop with `i` bytes written, after `begin_op`, after
`ilock`, after `writei` has returned `r`, after the update of `f->off`, after `iunlock`, and after the call. -/
inductive WritePc where
  | idle
  | top (i : ℕ)
  | begun (i : ℕ)
  | locked (i : ℕ)
  | wrote (i : ℕ) (r : ℤ)
  | advanced (i : ℕ) (r : ℤ)
  | unlocked (i : ℕ) (r : ℤ)
  | done (ret : ℤ)
  deriving DecidableEq

/-- `n1`. -/
def chunkSize (n : ℤ) (i : ℕ) : ℕ := min (n.toNat - i) maxWrite

/-- `ret` at the end of the loop. -/
def writeRet (n : ℤ) (i : ℕ) : ℤ := if (i : ℤ) = n then n else -1

variable (sb : Superblock)

def writeStep (f : FileIx) (src : Src) (n : ℤ) : WritePc → SysM WritePc
  | .idle => do
    let ff ← getFile f
    if !ff.writable then return .done (-1)
    else match ff.type with
      | .device => if ff.major < 0 ∨ Int16.ofNat NDEV ≤ ff.major then return .done (-1) else return .done n
      | .inode => return .top 0
      | .none => throw (.panic "filewrite")
  | .top i =>
    if (i : ℤ) < n then do
      liftFs beginOp
      return .begun i
    else return .done (writeRet n i)
  | .begun i => do
    let ff ← getFile f
    liftFs (ilock sb ff.ip)
    return .locked i
  | .locked i => do
    let ff ← getFile f
    let r ← liftFs (writei sb ff.ip (src.from i) ff.off (UInt32.ofNat (chunkSize n i)))
    return .wrote i r
  | .wrote i r => do
    let ff ← getFile f
    if 0 < r then setFile f { ff with off := ff.off + UInt32.ofNat r.toNat }
    return .advanced i r
  | .advanced i r => do
    let ff ← getFile f
    liftFs (iunlock ff.ip)
    return .unlocked i r
  | .unlocked i r => do
    liftFs endOp
    if r ≠ chunkSize n i then return .done (writeRet n i) else return .top (i + chunkSize n i)
  | .done _ => throw .hang

structure SharedSt where
  sys : Sys
  pc : ℕ → WritePc

/-- The next step of call `k`, which writes `(script k).2` bytes from the memory `(script k).1` of its process. -/
def sharedStep (f : FileIx) (script : ℕ → (ℕ → Option UInt8) × ℤ) (k : ℕ) (σ : SharedSt) : Outcome SharedSt :=
  match writeStep sb f (.user (script k).1) (script k).2 (σ.pc k) σ.sys with
  | .ok (pc, sys) => .ok ⟨sys, Function.update σ.pc k pc⟩
  | .error (.panic msg) => .panic msg
  | .error .hang => .blocked

end Xv6.Fs
