import Xv6.Spec.Param

/-! The redo log of `log.c`: the on-disk header, `write_log`, `write_head`,
`install_trans`, `commit` and `recover_from_log`, run by one thread. Every block
goes through the buffer cache, and the block writes issued are recorded in
order, so that a crash is a prefix of them. -/

namespace Xv6.Log

open Bytes

/-- What the log code works on: the disk, the contents of the cached buffers,
`log.lh` as the list of its first `n` block numbers, and the disk writes issued
so far, oldest first. -/
structure LogSt where
  disk : ℕ → Block
  cache : ℕ → Option Block
  lh : List UInt32
  writes : List (ℕ × Block)

/-- The data of the buffer `bread` returns for block `b`. -/
def LogSt.buf (s : LogSt) (b : ℕ) : Block := (s.cache b).getD (s.disk b)

def bread (b : ℕ) (s : LogSt) : LogSt := { s with cache := Function.update s.cache b (some (s.buf b)) }

/-- Overwrite the data of the buffer of block `b`. -/
def setData (b : ℕ) (d : Block) (s : LogSt) : LogSt := { s with cache := Function.update s.cache b (some d) }

/-- `memmove(dst->data, src->data, BSIZE)`. -/
def memmove (dst src : ℕ) (s : LogSt) : LogSt := setData dst (s.buf src) s

def bwrite (b : ℕ) (s : LogSt) : LogSt :=
  { s with disk := Function.update s.disk b (s.buf b), writes := s.writes ++ [(b, s.buf b)] }

/-- `log.lh.block[i]`. -/
def LogSt.block (s : LogSt) (i : ℕ) : ℕ := (s.lh.getD i 0).toNat

/-- The loop bound read from a header block: the `int` field `n`, no iteration if negative. -/
def headN (b : Block) : ℕ := (b.get32 0).toInt32.toInt.toNat

def getHead (b : Block) : List UInt32 := (List.range (headN b)).map fun i => b.get32 (4 + 4 * i)

/-- The first `k` entries of `hb->block` set from `lh`. -/
def putBlocks (lh : List UInt32) (b : Block) (k : ℕ) : Block :=
  (List.range k).foldl (fun b i => b.put32 (4 + 4 * i) (lh.getD i 0)) b

def putHead (lh : List UInt32) (b : Block) : Block :=
  putBlocks lh (b.put32 0 (UInt32.ofNat lh.length)) lh.length

def readHead (start : ℕ) (s : LogSt) : LogSt :=
  let s := bread start s
  { s with lh := getHead (s.buf start) }

def writeHead (start : ℕ) (s : LogSt) : LogSt :=
  let s := bread start s
  bwrite start (setData start (putHead s.lh (s.buf start)) s)

/-- One iteration of `write_log`'s loop: cache block to log block. -/
def writeLogAt (start : ℕ) (s : LogSt) (tail : ℕ) : LogSt :=
  let dst := start + tail + 1
  let src := s.block tail
  bwrite dst (memmove dst src (bread src (bread dst s)))

def writeLog (start : ℕ) (s : LogSt) : LogSt := (List.range s.lh.length).foldl (writeLogAt start) s

/-- One iteration of `install_trans`'s loop: log block to home block. Pins and
the `recovering` flag do not change the data. -/
def installTransAt (start : ℕ) (s : LogSt) (tail : ℕ) : LogSt :=
  let src := start + tail + 1
  let dst := s.block tail
  bwrite dst (memmove dst src (bread dst (bread src s)))

def installTrans (start : ℕ) (s : LogSt) : LogSt :=
  (List.range s.lh.length).foldl (installTransAt start) s

/-- `log.lh.n = 0`. -/
def clearLh (s : LogSt) : LogSt := { s with lh := [] }

def commit (start : ℕ) (s : LogSt) : LogSt :=
  if 0 < s.lh.length then
    let s := writeLog start s
    let s := writeHead start s
    let s := installTrans start s
    writeHead start (clearLh s)
  else s

def recoverFromLog (start : ℕ) (s : LogSt) : LogSt :=
  let s := readHead start s
  let s := installTrans start s
  writeHead start (clearLh s)

/-- The log after a reboot: nothing cached, no header read yet. -/
def boot (d : ℕ → Block) : LogSt := { disk := d, cache := fun _ => none, lh := [], writes := [] }

/-- Apply block writes in order. -/
def applyWrites (d : ℕ → Block) (ws : List (ℕ × Block)) : ℕ → Block :=
  ws.foldl (fun d w => Function.update d w.1 w.2) d

/-- The block writes of one commit, and those of one recovery of disk `d`. -/
def commitWrites (start : ℕ) (s : LogSt) : List (ℕ × Block) :=
  (commit start { s with writes := [] }).writes

def recoverWrites (start : ℕ) (d : ℕ → Block) : List (ℕ × Block) :=
  (recoverFromLog start (boot d)).writes

/-- The disk left by a crash after the first `k` writes of `ws`. -/
def crash (d : ℕ → Block) (ws : List (ℕ × Block)) (k : ℕ) : ℕ → Block := applyWrites d (ws.take k)

/-- Any finite number of recoveries, each cut short by a crash at some write. -/
inductive Crashes (start : ℕ) (d : ℕ → Block) : (ℕ → Block) → Prop
  | refl : Crashes start d d
  | again {d'} (k : ℕ) : Crashes start d d' → Crashes start d (crash d' (recoverWrites start d') k)

/-- The header block and the `LOGBLOCKS` data blocks of the log. -/
def InLog (start b : ℕ) : Prop := start ≤ b ∧ b ≤ start + LOGBLOCKS

instance (start b : ℕ) : Decidable (InLog start b) := inferInstanceAs (Decidable (_ ∧ _))

end Xv6.Log
