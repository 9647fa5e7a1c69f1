import Xv6.Lib.Wp
import Xv6.Spec.Layout

/-! Blocks, inodes and inode content of `fs.c`, as one process runs them. `disk` is
what `bread` returns, so the contents of the block cache over those of the disk;
`log_write` makes a block part of the transaction and is recorded. A sleep-lock
is held or free: taking a held one would wait for oneself. -/

namespace Xv6.Fs

open Bytes Wp

/-- Why a call does not return. -/
inductive Stop where
  | panic (msg : String)
  | hang
  deriving DecidableEq

abbrev Ip := Fin NINODE

/-- `struct inode`; `d` is the copy of the disk inode. -/
structure Inode where
  dev : ℕ
  inum : ℕ
  ref : ℕ
  locked : Bool
  valid : Bool
  d : Dinode

/-- The calls that open and close transactions, and the one that needs one. -/
inductive TxEvent where
  | beginOp
  | endOp
  | iput
  deriving DecidableEq

/-- `logged` holds the blocks passed to `log_write` since the last `begin_op`, and
`tx` counts the `begin_op`s not yet ended. `gen i` counts how often `ialloc` has
handed out inode `i`, and `trace` holds the calls of `begin_op`, `end_op` and `iput`
so far; no call reads them. -/
structure State where
  disk : ℕ → Block
  itable : Ip → Inode
  logged : List ℕ
  tx : ℕ
  gen : ℕ → ℕ
  trace : List TxEvent

abbrev FsM := StateT State (Except Stop)

def panic {α : Type} (msg : String) : FsM α := throw (.panic msg)

section Cache

def bread (b : ℕ) : FsM Block := do return (← get).disk b

/-- Change the data of the buffer of block `b`, without and with `log_write`. -/
def State.poke (s : State) (b : ℕ) (d : Block) : State := { s with disk := Function.update s.disk b d }

def State.write (s : State) (b : ℕ) (d : Block) : State := { s.poke b d with logged := s.logged ++ [b] }

def poke (b : ℕ) (d : Block) : FsM Unit := modify fun s => s.poke b d

def logWrite (b : ℕ) (d : Block) : FsM Unit := modify fun s => s.write b d

def bzero (b : ℕ) : FsM Unit := logWrite b ByteVec.zero

end Cache

section Table

def State.setInode (s : State) (ip : Ip) (e : Inode) : State :=
  { s with itable := Function.update s.itable ip e }

def getInode (ip : Ip) : FsM Inode := do return (← get).itable ip

def setInode (ip : Ip) (e : Inode) : FsM Unit := modify fun s => s.setInode ip e

/-- Assign to the fields of `*ip` that live on disk. -/
def setD (ip : Ip) (f : Dinode → Dinode) : FsM Unit := do
  let e ← getInode ip
  setInode ip { e with d := f e.d }

def iget (dev inum : ℕ) : FsM Ip := do
  let s ← get
  match (List.finRange NINODE).find? fun ip =>
      0 < (s.itable ip).ref && (s.itable ip).dev == dev && (s.itable ip).inum == inum with
  | some ip => do
    setInode ip { s.itable ip with ref := (s.itable ip).ref + 1 }
    return ip
  | none =>
    match (List.finRange NINODE).find? fun ip => (s.itable ip).ref == 0 with
    | some ip => do
      setInode ip { s.itable ip with dev := dev, inum := inum, ref := 1, valid := false }
      return ip
    | none => panic "iget: no inodes"

def idup (ip : Ip) : FsM Ip := do
  let e ← getInode ip
  setInode ip { e with ref := e.ref + 1 }
  return ip

def acquiresleep (ip : Ip) : FsM Unit := do
  let e ← getInode ip
  if e.locked then throw .hang else setInode ip { e with locked := true }

def releasesleep (ip : Ip) : FsM Unit := do
  let e ← getInode ip
  setInode ip { e with locked := false }

def iunlock (ip : Ip) : FsM Unit := do
  let e ← getInode ip
  if !e.locked || e.ref < 1 then panic "iunlock" else releasesleep ip

end Table

variable (sb : Superblock)

section Blocks

/-- The inner loop of `balloc`: the first clear bit from `bi` on among the next `n`. -/
def findFree (bp : Block) (b size : ℕ) : ℕ → ℕ → Option ℕ
  | 0, _ => none
  | n + 1, bi =>
    if b + bi < size then
      if testBit bp bi then findFree bp b size n (bi + 1) else some bi
    else none

/-- The outer loop of `balloc` from block `b` on, `n` passes at most. -/
def ballocFrom : ℕ → ℕ → FsM UInt32
  | 0, _ => pure 0
  | n + 1, b =>
    if b < sb.size then do
      let bp ← bread (sb.bblock b)
      match findFree bp b sb.size BPB 0 with
      | some bi => do
        logWrite (sb.bblock b) (setBit bp bi)
        bzero (b + bi)
        return UInt32.ofNat (b + bi)
      | none => ballocFrom n (b + BPB)
    else pure 0

def balloc : FsM UInt32 := ballocFrom sb (sb.size / BPB + 1) 0

def bfree (b : UInt32) : FsM Unit := do
  let bp ← bread (sb.bblock b.toNat)
  let bi := b.toNat % BPB
  if testBit bp bi then logWrite (sb.bblock b.toNat) (clearBit bp bi) else panic "freeing free block"

end Blocks

section Inodes

def State.bear (s : State) (inum : ℕ) : State :=
  { s with gen := Function.update s.gen inum (s.gen inum + 1) }

/-- The loop of `ialloc` from `inum` on, `n` passes at most. -/
def iallocFrom (dev : ℕ) (type : Int16) : ℕ → ℕ → FsM (Option Ip)
  | 0, _ => pure none
  | n + 1, inum =>
    if inum < sb.ninodes then do
      let bp ← bread (sb.iblock inum)
      if (Dinode.get bp (inum % IPB)).type = 0 then do
        logWrite (sb.iblock inum) (Dinode.put bp (inum % IPB) { Dinode.zero with type := type })
        modify fun s => s.bear inum
        let ip ← iget dev inum
        return some ip
      else iallocFrom dev type n (inum + 1)
    else pure none

def ialloc (dev : ℕ) (type : Int16) : FsM (Option Ip) := iallocFrom sb dev type sb.ninodes 1

def iupdate (ip : Ip) : FsM Unit := do
  let e ← getInode ip
  let bp ← bread (sb.iblock e.inum)
  logWrite (sb.iblock e.inum) (Dinode.put bp (e.inum % IPB) e.d)

def ilock (ip : Ip) : FsM Unit := do
  let e ← getInode ip
  if e.ref < 1 then panic "ilock"
  else do
    acquiresleep ip
    let e ← getInode ip
    if e.valid then pure ()
    else do
      let bp ← bread (sb.iblock e.inum)
      let d := Dinode.get bp (e.inum % IPB)
      setInode ip { e with d := d, valid := true }
      if d.type = 0 then panic "ilock: no type" else pure ()

end Inodes

section Content

/-- `if((addr = ip->addrs[k]) == 0){ addr = balloc(ip->dev); if(addr == 0) return 0; ip->addrs[k] = addr; }` -/
def addrOrAlloc (ip : Ip) (k : Fin (NDIRECT + 1)) : FsM UInt32 := do
  let e ← getInode ip
  if e.d.addrs k = 0 then do
    let addr ← balloc sb
    if addr = 0 then pure 0
    else do
      setD ip fun d => { d with addrs := Function.update d.addrs k addr }
      return addr
  else return e.d.addrs k

/-- The part of `bmap` for entry `bn` of the indirect block, which is block `ind`. -/
def bmapEntry (ind : UInt32) (bn : ℕ) : FsM UInt32 := do
  let bp ← bread ind.toNat
  if bp.get32 (4 * bn) = 0 then do
    let addr ← balloc sb
    if addr = 0 then pure 0
    else do
      -- `bp` is the buffer itself: what `balloc` left in it is what gets the entry
      let bp ← bread ind.toNat
      logWrite ind.toNat (bp.put32 (4 * bn) addr)
      return addr
  else return bp.get32 (4 * bn)

def bmap (ip : Ip) (bn : ℕ) : FsM UInt32 :=
  if h : bn < NDIRECT then addrOrAlloc sb ip ⟨bn, by omega⟩
  else if bn - NDIRECT < NINDIRECT then do
    let ind ← addrOrAlloc sb ip (Fin.last NDIRECT)
    if ind = 0 then pure 0 else bmapEntry sb ind (bn - NDIRECT)
  else panic "bmap: out of range"

/-- One pass of the first loop of `itrunc`. -/
def truncDirect (ip : Ip) (k : Fin (NDIRECT + 1)) : FsM Unit := do
  let e ← getInode ip
  if e.d.addrs k = 0 then pure ()
  else do
    bfree sb (e.d.addrs k)
    setD ip fun d => { d with addrs := Function.update d.addrs k 0 }

/-- One pass of the second loop of `itrunc`, over the indirect block `ind`. -/
def truncEntry (ind : UInt32) (j : ℕ) : FsM Unit := do
  let bp ← bread ind.toNat
  if bp.get32 (4 * j) = 0 then pure () else bfree sb (bp.get32 (4 * j))

/-- The part of `itrunc` for the indirect block and its entries. -/
def truncIndirect (ip : Ip) : FsM Unit := do
  let e ← getInode ip
  if e.d.addrs (Fin.last NDIRECT) = 0 then pure ()
  else do
    repeatFrom (truncEntry sb (e.d.addrs (Fin.last NDIRECT))) NINDIRECT 0
    bfree sb (e.d.addrs (Fin.last NDIRECT))
    setD ip fun d => { d with addrs := Function.update d.addrs (Fin.last NDIRECT) 0 }

def itrunc (ip : Ip) : FsM Unit := do
  repeatFrom (fun k => truncDirect sb ip (Fin.ofNat (NDIRECT + 1) k)) NDIRECT 0
  truncIndirect sb ip
  setD ip fun d => { d with size := 0 }
  iupdate sb ip

/-- The first half of `iput`: truncate and free an inode without links whose last
reference this is. -/
def freeUnlinked (ip : Ip) : FsM Unit := do
  let e ← getInode ip
  if e.ref = 1 ∧ e.valid = true ∧ e.d.nlink = 0 then do
    acquiresleep ip
    itrunc sb ip
    setD ip fun d => { d with type := 0 }
    iupdate sb ip
    let e ← getInode ip
    setInode ip { e with valid := false }
    releasesleep ip
  else pure ()

def State.note (s : State) (e : TxEvent) : State := { s with trace := s.trace ++ [e] }

def iput (ip : Ip) : FsM Unit := do
  freeUnlinked sb ip
  modify fun s => s.note .iput
  let e ← getInode ip
  setInode ip { e with ref := e.ref - 1 }

def iunlockput (ip : Ip) : FsM Unit := do
  iunlock ip
  iput sb ip

/-- Where `writei` copies from: kernel memory, or user memory from the given
address on, where a byte may not be mapped. -/
inductive Src where
  | kernel (bytes : List UInt8)
  | user (mem : ℕ → Option UInt8)

/-- `either_copyin` of `m` bytes at distance `t`: the bytes copied, and whether all were. -/
def Src.copy : Src → ℕ → ℕ → List UInt8 × Bool
  | .kernel bytes, t, m => ((bytes.drop t).take m, true)
  | .user mem, t, m =>
    let got := (List.range m).map fun i => mem (t + i)
    ((got.takeWhile Option.isSome).map (·.getD 0), got.all Option.isSome)

/-- Where `readi` copies to: kernel memory, or user memory that may not be writable. -/
inductive Dst where
  | kernel
  | user (writable : ℕ → Bool)

def Dst.copy : Dst → ℕ → ℕ → Bool
  | .kernel, _, _ => true
  | .user writable, t, m => (List.range m).all fun i => writable (t + i)

/-- The loop of `readi`, `k` passes at most: `tot` and the bytes copied so far. -/
def readiFrom (ip : Ip) (dst : Dst) (n : ℕ) : ℕ → ℕ → ℕ → List UInt8 → FsM (ℤ × List UInt8)
  | 0, tot, _, acc => pure (tot, acc)
  | k + 1, tot, off, acc =>
    if tot < n then do
      let addr ← bmap sb ip (off / BSIZE)
      if addr = 0 then pure (tot, acc)
      else do
        let bp ← bread addr.toNat
        let m := min (n - tot) (BSIZE - off % BSIZE)
        if dst.copy tot m then readiFrom ip dst n k (tot + m) (off + m) (acc ++ bp.slice (off % BSIZE) m)
        else pure (-1, acc)
    else pure (tot, acc)

def readi (ip : Ip) (dst : Dst) (off n : UInt32) : FsM (ℤ × List UInt8) := do
  let e ← getInode ip
  if off > e.d.size ∨ off + n < off then return (0, [])
  else
    let n := if off + n > e.d.size then e.d.size - off else n
    readiFrom sb ip dst n.toNat n.toNat 0 off.toNat []

/-- The loop of `writei`, `k` passes at most: `tot` and `off` when it ends. -/
def writeiFrom (ip : Ip) (src : Src) (n : ℕ) : ℕ → ℕ → ℕ → FsM (ℕ × ℕ)
  | 0, tot, off => pure (tot, off)
  | k + 1, tot, off =>
    if tot < n then do
      let addr ← bmap sb ip (off / BSIZE)
      if addr = 0 then pure (tot, off)
      else do
        let bp ← bread addr.toNat
        let m := min (n - tot) (BSIZE - off % BSIZE)
        let (bytes, ok) := src.copy tot m
        if ok then do
          logWrite addr.toNat (bp.splice (off % BSIZE) bytes)
          writeiFrom ip src n k (tot + m) (off + m)
        else do
          -- the buffer keeps what was copied before the fault
          poke addr.toNat (bp.splice (off % BSIZE) bytes)
          return (tot, off)
    else pure (tot, off)

def writei (ip : Ip) (src : Src) (off n : UInt32) : FsM ℤ := do
  let e ← getInode ip
  if off > e.d.size ∨ off + n < off then return -1
  else if (off + n).toNat > MAXFILE * BSIZE then return -1
  else do
    let (tot, off) ← writeiFrom sb ip src n.toNat n.toNat 0 off.toNat
    setD ip fun d => { d with size := if off > d.size.toNat then UInt32.ofNat off else d.size }
    iupdate sb ip
    return tot

end Content

end Xv6.Fs
