import Xv6.Spec.FsCalls
import Xv6.Spec.Mkfs

/-! `ireclaim`, which `fsinit` runs when the system starts: it frees the inodes that
were unlinked but still open when the system last stopped. -/

namespace Xv6.Fs

open Wp

variable (sb : Superblock)

/-- The inode is allocated and has no link. -/
def Dinode.Orphan (d : Dinode) : Prop := d.type ≠ 0 ∧ d.nlink = 0

instance (d : Dinode) : Decidable d.Orphan := inferInstanceAs (Decidable (_ ∧ _))

/-- One pass of the loop of `ireclaim`. -/
def reclaim (dev inum : ℕ) : FsM Unit := do
  let bp ← bread (sb.iblock inum)
  if (Dinode.get bp (inum % IPB)).Orphan then do
    let ip ← iget dev inum
    beginOp
    ilock sb ip
    iunlock ip
    iput sb ip
    endOp
  else pure ()

def ireclaim (dev : ℕ) : FsM Unit := repeatFrom (reclaim sb dev) (sb.ninodes - 1) 1

/-- The state in which the first process calls `fsinit`: `userinit` has made the root its
working directory, by `namei("/")`, and nothing has read an inode yet. -/
def State.first (disk : ℕ → Block) : State :=
  (State.boot disk).setInode 0 { Inode.zero with dev := ROOTDEV, inum := ROOTINO, ref := 1 }

end Xv6.Fs
