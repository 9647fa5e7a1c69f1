import Xv6.Lib.Bytes

/-! Constants of `param.h` and `fs.h` as the repository configures them
(`conf/lab.mk` selects `LAB=util`). -/

namespace Xv6

open Bytes

/-- Most blocks any file-system call writes. -/
abbrev MAXOPBLOCKS : ℕ := 10

/-- Data blocks of the on-disk log. -/
abbrev LOGBLOCKS : ℕ := MAXOPBLOCKS * 3

/-- Buffers of the block cache. -/
abbrev NBUF : ℕ := MAXOPBLOCKS * 3

abbrev BSIZE : ℕ := 1024

abbrev ROOTDEV : ℕ := 1

/-- Entries of the inode table, of the file table, descriptors of a process,
processes, CPUs, major device numbers, and the longest path with its NUL. -/
abbrev NINODE : ℕ := 50
abbrev NFILE : ℕ := 100
abbrev NOFILE : ℕ := 16
abbrev NPROC : ℕ := 64
abbrev NCPU : ℕ := 8
abbrev NDEV : ℕ := 10
abbrev MAXPATH : ℕ := 128

instance : NeZero NINODE := ⟨by decide⟩
instance : NeZero NPROC := ⟨by decide⟩
instance : NeZero NCPU := ⟨by decide⟩

abbrev Block := ByteVec BSIZE

end Xv6
