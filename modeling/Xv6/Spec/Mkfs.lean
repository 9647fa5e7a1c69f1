import Xv6.Spec.Dir

/-! The disk `mkfs` writes when it is given no files, and the state in which the
kernel finds it after boot: nothing is in the inode table yet. -/

namespace Xv6.Fs

open Bytes

variable (sb : Superblock)

/-- `balloc(used)` of `mkfs`: the bitmap with the first `used` bits set. -/
def usedBits (used : ℕ) : Block := (List.range used).foldl setBit ByteVec.zero

/-- The block of a directory `self` in `parent` with nothing in it. -/
def dirBlock (self parent : ℕ) : Block :=
  (ByteVec.zero.splice 0 (Dirent.encode ⟨UInt16.ofNat self, strncpy DIRSIZ dot⟩)).splice DIRENT
    (Dirent.encode ⟨UInt16.ofNat parent, strncpy DIRSIZ dotdot⟩)

/-- The root inode, its size rounded up to a block. -/
def rootInode : Dinode :=
  { Dinode.zero with
    type := T_DIR
    nlink := 1
    size := UInt32.ofNat BSIZE
    addrs := Function.update (fun _ => 0) 0 (UInt32.ofNat sb.datastart) }

def mkfs : ℕ → Block :=
  Function.update
    (Function.update
      (Function.update (fun _ => ByteVec.zero) (sb.iblock ROOTINO) (Dinode.put ByteVec.zero ROOTINO (rootInode sb)))
      sb.datastart (dirBlock ROOTINO ROOTINO))
    sb.bmapstart (usedBits (sb.datastart + 1))

def Inode.zero : Inode where
  dev := 0
  inum := 0
  ref := 0
  locked := false
  valid := false
  d := Dinode.zero

def State.boot (disk : ℕ → Block) : State where
  disk := disk
  itable := fun _ => Inode.zero
  logged := []
  tx := 0
  gen := fun _ => 0
  trace := []

/-- A small disk: sixteen inodes and forty blocks. -/
def smallSb : Superblock where
  size := 40
  nblocks := 33
  ninodes := 16
  nlog := 2
  logstart := 2
  inodestart := 4
  bmapstart := 6

end Xv6.Fs
