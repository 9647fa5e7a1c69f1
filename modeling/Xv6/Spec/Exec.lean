import Xv6.Spec.FsCalls

/-! What `kexec` does to the file system. The memory of the process is not part of this model: `ExecMem` says how the calls
that build it turn out. -/

namespace Xv6.Fs

open Bytes

abbrev PGSIZE : UInt32 := 4096
abbrev ELF_MAGIC : UInt32 := 0x464C457F
abbrev ELF_PROG_LOAD : UInt32 := 1

/-- The little-endian number of `n` bytes at `o` in a header. -/
def headerField (bytes : List UInt8) (o n : ℕ) : ℕ := ((bytes.drop o).take n).foldr (fun b x => b.toNat + 256 * x) 0

/-- How the memory side of `sys_exec` turns out: `args` if the arguments could be fetched, `table` if `proc_pagetable`
found a page, `grow k` if `uvmalloc` succeeded for program header `k`, `page k t` if `walkaddr` finds page `t` of its
segment, and `stack` what is returned once the image is loaded. -/
structure ExecMem where
  args : Bool
  table : Bool
  grow : ℕ → Bool
  page : ℕ → ℕ → Bool
  stack : ℤ

variable (sb : Superblock) (ip : Ip)

/-- The loop of `loadseg` from byte `i` on, `k` passes at most. -/
def loadsegFrom (page : ℕ → Bool) (offset sz : UInt32) : ℕ → UInt32 → FsM Bool
  | 0, _ => pure true
  | k + 1, i =>
    if i < sz then
      if !page (i / PGSIZE).toNat then panic "loadseg: address should exist"
      else do
        let n := if sz - i < PGSIZE then sz - i else PGSIZE
        let (r, _) ← readi sb ip .kernel (offset + i) n
        if r ≠ n.toNat then return false else loadsegFrom page offset sz k (i + PGSIZE)
    else pure true

def loadseg (page : ℕ → Bool) (offset sz : UInt32) : FsM Bool :=
  loadsegFrom sb ip page offset sz (sz.toNat / PGSIZE.toNat + 1) 0

/-- The loop over the program headers, from header `k` at `off` on with `n` left. -/
def loadHeaders (mem : ExecMem) : ℕ → ℕ → UInt32 → FsM Bool
  | 0, _, _ => pure true
  | n + 1, k, off => do
    let (r, ph) ← readi sb ip .kernel off 56
    let filesz := headerField ph 32 8
    let memsz := headerField ph 40 8
    let vaddr := headerField ph 16 8
    if r ≠ 56 then return false
    else if headerField ph 0 4 ≠ ELF_PROG_LOAD.toNat then loadHeaders mem n (k + 1) (off + 56)
    else if memsz < filesz then return false
    else if (vaddr + memsz) % 2 ^ 64 < vaddr then return false
    else if vaddr % PGSIZE.toNat ≠ 0 then return false
    else if !mem.grow k then return false
    else do
      let ok ← loadseg sb ip (mem.page k) (UInt32.ofNat (headerField ph 8 8)) (UInt32.ofNat filesz)
      if ok then loadHeaders mem n (k + 1) (off + 56) else return false

/-- `kexec` while it has the inode locked: false at `goto bad`. -/
def loadImage (mem : ExecMem) : FsM Bool := do
  let (r, elf) ← readi sb ip .kernel 0 64
  if r ≠ 64 then return false
  else if headerField elf 0 4 ≠ ELF_MAGIC.toNat then return false
  else if !mem.table then return false
  else loadHeaders sb ip mem (headerField elf 56 2) 0 (UInt32.ofNat (headerField elf 32 8))

def kexec (cwd : Ip) (path : List UInt8) (mem : ExecMem) : FsM ℤ := do
  beginOp
  match ← namei sb cwd path with
  | none => do
    endOp
    return -1
  | some ip => do
    ilock sb ip
    let ok ← loadImage sb ip mem
    iunlockput sb ip
    endOp
    return if ok then mem.stack else -1

def sysExec (cwd : Ip) (path : Option (List UInt8)) (mem : ExecMem) : FsM ℤ :=
  match argstr path with
  | none => pure (-1)
  | some path => if mem.args then kexec sb cwd path mem else pure (-1)

end Xv6.Fs
