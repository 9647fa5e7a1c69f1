import Xv6.Spec.Param

/-! The on-disk format of `fs.h`: where inodes and bitmap bits lie, and how
inodes, bits and directory entries are stored in the bytes of a block. -/

namespace Xv6.Fs

open Bytes

abbrev ROOTINO : ℕ := 1
abbrev NDIRECT : ℕ := 12

/-- `BSIZE / sizeof(uint)`. -/
abbrev NINDIRECT : ℕ := BSIZE / 4

abbrev MAXFILE : ℕ := NDIRECT + NINDIRECT

instance (priority := 2000) neZero_addrs : NeZero (NDIRECT + 1) := ⟨by decide⟩

/-- `BSIZE / sizeof(struct dinode)`. -/
abbrev IPB : ℕ := BSIZE / 64

abbrev BPB : ℕ := BSIZE * 8
abbrev DIRSIZ : ℕ := 14

/-- `sizeof(struct dirent)`. -/
abbrev DIRENT : ℕ := 16

abbrev T_DIR : Int16 := 1
abbrev T_FILE : Int16 := 2
abbrev T_DEVICE : Int16 := 3

/-- `struct superblock`, less the magic number `fsinit` checks. -/
structure Superblock where
  size : ℕ
  nblocks : ℕ
  ninodes : ℕ
  nlog : ℕ
  logstart : ℕ
  inodestart : ℕ
  bmapstart : ℕ
  deriving DecidableEq

namespace Superblock

variable (sb : Superblock)

/-- `IBLOCK(i, sb)` and `BBLOCK(b, sb)`. -/
def iblock (i : ℕ) : ℕ := i / IPB + sb.inodestart
def bblock (b : ℕ) : ℕ := b / BPB + sb.bmapstart

/-- The first data block, after the bitmap: `nmeta` of `mkfs`. -/
def datastart : ℕ := sb.bmapstart + sb.size / BPB + 1

/-- The layout `mkfs` computes: the areas follow each other and each has room
for what it holds. Block numbers fit an `int` and inode numbers a `ushort`. -/
structure Wf : Prop where
  logstart : sb.logstart = 2
  inodestart : sb.inodestart = 2 + sb.nlog
  bmapstart : sb.bmapstart = sb.inodestart + (sb.ninodes / IPB + 1)
  size : sb.size = sb.datastart + sb.nblocks
  small : sb.size < 2 ^ 31
  inums : sb.ninodes ≤ 2 ^ 16

end Superblock

/-- `struct dinode`. -/
structure Dinode where
  type : Int16
  major : Int16
  minor : Int16
  nlink : Int16
  size : UInt32
  addrs : Fin (NDIRECT + 1) → UInt32
  deriving DecidableEq

namespace Dinode

/-- `memset(dip, 0, sizeof(*dip))`. -/
def zero : Dinode where
  type := 0
  major := 0
  minor := 0
  nlink := 0
  size := 0
  addrs := fun _ => 0

def encode (d : Dinode) : List UInt8 :=
  le16 d.type.toUInt16 ++ le16 d.major.toUInt16 ++ le16 d.minor.toUInt16 ++ le16 d.nlink.toUInt16 ++
    le32 d.size ++ (List.finRange (NDIRECT + 1)).flatMap fun k => le32 (d.addrs k)

/-- The `i`-th inode of an inode block, read and overwritten. -/
def get (b : Block) (i : ℕ) : Dinode where
  type := (b.get16 (64 * i)).toInt16
  major := (b.get16 (64 * i + 2)).toInt16
  minor := (b.get16 (64 * i + 4)).toInt16
  nlink := (b.get16 (64 * i + 6)).toInt16
  size := b.get32 (64 * i + 8)
  addrs := fun k => b.get32 (64 * i + (12 + 4 * k))

def put (b : Block) (i : ℕ) (d : Dinode) : Block := b.splice (64 * i) d.encode

end Dinode

/-- `m = 1 << (bi % 8)`. -/
def mask (bi : ℕ) : UInt8 := 1 <<< UInt8.ofNat (bi % 8)

/-- Bit `bi` of a bitmap block: test, set, clear. -/
def testBit (b : Block) (bi : ℕ) : Bool := b.get (bi / 8) &&& mask bi != 0
def setBit (b : Block) (bi : ℕ) : Block := b.splice (bi / 8) [b.get (bi / 8) ||| mask bi]
def clearBit (b : Block) (bi : ℕ) : Block := b.splice (bi / 8) [b.get (bi / 8) &&& ~~~ mask bi]

/-- `struct dirent`; `name` is the whole array of `DIRSIZ` bytes. -/
structure Dirent where
  inum : UInt16
  name : List UInt8
  deriving DecidableEq

namespace Dirent

def encode (de : Dirent) : List UInt8 := le16 de.inum ++ de.name

def decode (bs : List UInt8) : Dirent where
  inum := de16 (bs.take 2)
  name := bs.drop 2

end Dirent

end Xv6.Fs
