import Xv6.Spec.FsCalls
import Xv6.Spec.InodeRun

/-! Sequences of complete operations on files and directories. An operation takes the lock of the inode it works on and gives
it back; references are taken and dropped by operations of their own. -/

namespace Xv6.Fs

open Machine

inductive FileOp where
  | iget (inum : ℕ)
  | iput (ip : Ip)
  | writei (ip : Ip) (src : Src) (off n : UInt32)
  | itrunc (ip : Ip)
  | dirlink (dp : Ip) (name : List UInt8) (inum : ℕ)
  | create (cwd : Ip) (path : List UInt8) (type major minor : Int16)
  | unlink (cwd : Ip) (path : Option (List UInt8))

/-- The type of inode `i` on disk. -/
def typeOf (sb : Superblock) (s : State) (i : ℕ) : Int16 := (Dinode.get (s.disk (sb.iblock i)) (i % IPB)).type

/-- References are to allocated inodes; `writei` and `itrunc` are for files and `dirlink` is for directories. -/
def FileOp.May (sb : Superblock) (s : State) : FileOp → Prop
  | .iget inum => inum < sb.ninodes ∧ typeOf sb s inum ≠ 0
  | .iput ip => s.Ref ip
  | .writei ip _ _ _ | .itrunc ip => s.Ref ip ∧ typeOf sb s (s.itable ip).inum ≠ T_DIR
  | .dirlink dp _ inum => s.Ref dp ∧ typeOf sb s (s.itable dp).inum = T_DIR ∧ inum < sb.ninodes
  | .create cwd _ type _ _ => s.Ref cwd ∧ type ≠ 0
  | .unlink cwd _ => s.Ref cwd

instance (sb : Superblock) (s : State) (op : FileOp) : Decidable (op.May sb s) := by
  cases op <;> unfold FileOp.May <;> infer_instance

def FileOp.run (sb : Superblock) : FileOp → FsM Unit
  | .iget inum => do let _ ← Fs.iget ROOTDEV inum
  | .iput ip => Fs.iput sb ip
  | .writei ip src off n => do
    ilock sb ip
    let _ ← Fs.writei sb ip src off n
    iunlock ip
  | .itrunc ip => do
    ilock sb ip
    Fs.itrunc sb ip
    iunlock ip
  | .dirlink dp name inum => do
    ilock sb dp
    let _ ← Fs.dirlink sb dp name inum
    iunlock dp
  | .create cwd path type major minor => do
    match ← Fs.create sb cwd path type major minor with
    | none => pure ()
    | some ip => iunlock ip
  | .unlink cwd path => do let _ ← sysUnlink sb cwd path

def fileStep (sb : Superblock) (op : FileOp) (s : State) : Outcome State :=
  if op.May sb s then toOutcome ((op.run sb).run s) else .blocked

end Xv6.Fs
