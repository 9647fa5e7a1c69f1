import Xv6.Spec.Exec
import Xv6.Spec.VmProc

/-! `kexec` on the file system, the memory and the process together: what `Spec.Exec` leaves to `ExecMem` and
`Spec.VmProc` to `Image` is here read from the file and put into the pages. -/

namespace Xv6.Exec

open Wp Fs Vm

/-- Why `kexec` does not return: the file system stops, a panic of `vm.c`, `kalloc.c`, `proc.c` or `exec.c`, or a loop
without an end. -/
inductive Stop where
  | fs (e : Fs.Stop)
  | panic (msg : String)
  | hang
  deriving DecidableEq

/-- The file system, the memory of the processes and their names (`p->name`). -/
structure St where
  fs : Fs.State
  vm : Vm.St
  name : Vm.Slot → List UInt8

abbrev M := StateT St (Except Stop)

def file {α : Type} (m : FsM α) : M α := fun σ =>
  match m σ.fs with
  | .ok (a, s) => .ok (a, { σ with fs := s })
  | .error e => .error (.fs e)

def proc {α : Type} (m : Vm.M α) : M α := fun σ =>
  match m σ.vm with
  | .ok (a, s) => .ok (a, { σ with vm := s })
  | .error msg => .error (.panic msg)

def mem {α : Type} (m : VmM α) : M α := proc (vm m)

/-- Of `struct elfhdr`, what is used. -/
structure ElfHdr where
  magic : ℕ
  entry : ℕ
  phoff : ℕ
  phnum : ℕ

def ElfHdr.decode (b : List UInt8) : ElfHdr where
  magic := headerField b 0 4
  entry := headerField b 24 8
  phoff := headerField b 32 8
  phnum := headerField b 56 2

/-- Of `struct proghdr`, what is used. -/
structure ProgHdr where
  type : ℕ
  flags : ℕ
  off : ℕ
  vaddr : ℕ
  filesz : ℕ
  memsz : ℕ

def ProgHdr.decode (b : List UInt8) : ProgHdr where
  type := headerField b 0 4
  flags := headerField b 4 4
  off := headerField b 8 8
  vaddr := headerField b 16 8
  filesz := headerField b 32 8
  memsz := headerField b 40 8

section Load

variable (sb : Superblock) (K : Kernel) (ip : Ip)

/-- The loop of `loadseg` from byte `i` on, `k` passes at most. -/
def loadsegFrom (pagetable va : ℕ) (offset sz : UInt32) : ℕ → UInt32 → M Bool
  | 0, _ => throw .hang
  | k + 1, i =>
    if i < sz then do
      match ← mem (walkaddr pagetable ((va + i.toNat) % 2 ^ 64)) with
      | none => throw (.panic "loadseg: address should exist")
      | some pa =>
        let n := if sz - i < Fs.PGSIZE then sz - i else Fs.PGSIZE
        let (r, bytes) ← file (readi sb ip .kernel (offset + i) n)
        -- whatever could be read is in the page
        mem (memmove pa 0 bytes)
        if r ≠ n.toNat then return false else loadsegFrom pagetable va offset sz k (i + Fs.PGSIZE)
    else pure true

/-- As many passes as there are if `i` does not wrap around. -/
def loadseg (pagetable va : ℕ) (offset sz : UInt32) : M Bool :=
  loadsegFrom sb ip pagetable va offset sz (sz.toNat / Vm.PGSIZE + 2) 0

/-- The loop over the program headers from `off` on, with `n` left: whether it has got to its end, and the size so
far. -/
def loadHeaders (pagetable : ℕ) : ℕ → UInt32 → ℕ → M (Bool × ℕ)
  | 0, _, sz => pure (true, sz)
  | n + 1, off, sz => do
    let (r, bytes) ← file (readi sb ip .kernel off 56)
    let ph := ProgHdr.decode bytes
    if r ≠ 56 then return (false, sz)
    else if ph.type ≠ ELF_PROG_LOAD.toNat then loadHeaders pagetable n (off + 56) sz
    else if ph.memsz < ph.filesz then return (false, sz)
    else if (ph.vaddr + ph.memsz) % 2 ^ 64 < ph.vaddr then return (false, sz)
    else if ph.vaddr % Vm.PGSIZE ≠ 0 then return (false, sz)
    else
      let sz1 ← mem (uvmalloc K pagetable sz ((ph.vaddr + ph.memsz) % 2 ^ 64) (flags2perm (BitVec.ofNat 32 ph.flags)))
      if sz1 = 0 then return (false, sz)
      else if ← loadseg sb ip pagetable ph.vaddr (UInt32.ofNat ph.off) (UInt32.ofNat ph.filesz) then
        loadHeaders pagetable n (off + 56) sz1
      else return (false, sz1)

end Load

section Kexec

variable (sb : Superblock) (K : Kernel)

/-- `goto bad`: `table` is the new page table, if there is one, and how much of it is to be freed, and `ip` the inode
while it is locked. -/
def bad {α : Type} (table : Option (ℕ × ℕ)) (ip : Option Ip) : M (Option α) := do
  if let some (pagetable, sz) := table then mem (procFreepagetable K pagetable sz)
  if let some ip := ip then
    file (iunlockput sb ip)
    file endOp
  return none

/-- `begin_op` and the locked inode of the executable, if there is one. -/
def openPath (cwd : Ip) (path : List UInt8) : FsM (Option Ip) := do
  beginOp
  match ← namei sb cwd path with
  | none => do
    endOp
    return none
  | some ip => do
    ilock sb ip
    return some ip

/-- `kexec` while it has the inode locked: the new page table, the size of the program and the header. -/
def loadImage (p : Vm.Slot) (ip : Ip) : M (Option (ℕ × ℕ × ElfHdr)) := do
  let (r, bytes) ← file (readi sb ip .kernel 0 64)
  let elf := ElfHdr.decode bytes
  if r ≠ 64 then bad sb K none (some ip)
  else if elf.magic ≠ ELF_MAGIC.toNat then bad sb K none (some ip)
  else
    match ← mem (procPagetable K (← proc (trapframeOf p))) with
    | none => bad sb K none (some ip)
    | some pagetable =>
      let (ok, sz) ← loadHeaders sb K ip pagetable elf.phnum (UInt32.ofNat elf.phoff) 0
      if !ok then bad sb K (some (pagetable, sz)) (some ip)
      else
        file (iunlockput sb ip)
        file endOp
        return some (pagetable, sz, elf)

/-- The last element of a path: `last` is where it begins so far. -/
def lastElem : List UInt8 → List UInt8 → List UInt8
  | last, [] => last
  | last, b :: s => lastElem (if b = 47 then s else last) s

/-- `safestrcpy(s, t, n)`, where `t` is a string without its end. -/
def safestrcpy : ℕ → List UInt8 → List UInt8 → List UInt8
  | 0, s, _ => s
  | 1, s, _ => 0 :: s.tail
  | _ + 2, s, [] => 0 :: 0 :: s.drop 2
  | n + 2, s, b :: t => b :: safestrcpy (n + 1) s.tail t

/-- `sizeof(p->name)` -/
def NAMELEN : ℕ := 16

/-- The switch to the new image, with the stack pointer `sp`. -/
def switchImage (p : Vm.Slot) (path : List UInt8) (pagetable sz entry sp oldpagetable oldsz : ℕ) : M Unit := do
  let tf ← proc (trapframeOf p)
  mem (memmove tf A1 (leBytes 8 sp))
  modify fun σ => { σ with name := Function.update σ.name p (safestrcpy NAMELEN (σ.name p) (lastElem path path)) }
  proc (modifyProc p fun e => { e with pagetable := some pagetable })
  proc (modifyProc p fun e => { e with sz := sz })
  mem (memmove tf EPC (leBytes 8 entry))
  mem (memmove tf SP (leBytes 8 sp))
  mem (procFreepagetable K oldpagetable oldsz)

/-- `kexec` once the program is in place: `argc`, or nothing if there is no room for the stack. -/
def commitImage (p : Vm.Slot) (path : List UInt8) (argv : List (List UInt8)) (pagetable sz : ℕ) (elf : ElfHdr) :
    M (Option ℕ) := do
  let oldpagetable ← proc (pagetableOf p)
  let oldsz := (← proc (Vm.getProc p)).sz
  let (stack, sz) ← mem (buildStack K oldpagetable oldsz pagetable sz argv)
  match stack with
  | none => bad sb K (some (pagetable, sz)) none
  | some sp => do
    switchImage K p path pagetable sz elf.entry sp oldpagetable oldsz
    return some argv.length

/-- The new page table, the size of the program and the header, once the transaction is closed. -/
def loadPath (p : Vm.Slot) (cwd : Ip) (path : List UInt8) : M (Option (ℕ × ℕ × ElfHdr)) := do
  match ← file (openPath sb cwd path) with
  | none => return none
  | some ip => loadImage sb K p ip

/-- `argc`, or nothing for `-1`; `argv` are the arguments, without their terminators. -/
def kexec (p : Vm.Slot) (cwd : Ip) (path : List UInt8) (argv : List (List UInt8)) : M (Option ℕ) := do
  match ← loadPath sb K p cwd path with
  | none => return none
  | some (pagetable, sz, elf) => commitImage sb K p path argv pagetable sz elf

end Kexec

end Xv6.Exec
