import Xv6.Spec.Proc

/-! `pipe.c`: the code of processes that share one pipe. -/

namespace Xv6

def PIPESIZE : ℕ := 512

/-- `struct pipe`, and a record of what has gone through it, which is not in the kernel: the
buffers of the calls of `pipewrite`, the bytes that have been put in with the number of the call,
the bytes that have been taken out with the number of the call, and how many calls of `piperead`
have come to take out bytes. -/
structure Pipe where
  data : ℕ → UInt8
  nread : BitVec 32
  nwrite : BitVec 32
  readopen : Bool
  writeopen : Bool
  calls : List (ℕ → Option UInt8)
  appended : List (ℕ × UInt8)
  removed : List (ℕ × UInt8)
  reads : ℕ

namespace Pipe

/-- The addresses that the processes sleep on. -/
inductive Addr where
  | nread
  | nwrite
  deriving DecidableEq

/-- Where those sleep that have to know when an end is closed. -/
def Addr.waiting (writable : Bool) : Addr := if writable then .nread else .nwrite

/-- What a process can call. Byte `i` of the buffer of a `pipewrite` is `mem i`, if `copyin` can
read it. -/
inductive Call where
  | pipewrite (mem : ℕ → Option UInt8) (n : ℤ)
  | piperead (n : ℤ)
  | pipeclose (writable : Bool)
  | kkill (pid : Int32)
  | kfork
  | kexit (status : Int32)
  | kwait

/-- The points of the code. `w` and `r` are the numbers of the calls; `owed` says that bytes have
been put in since the last `wakeup`, `took` that bytes have been taken out, and `killed` which of the
two tests has failed: the kernel has none of these. -/
inductive Point where
  | idle (ret : ℤ)
  | writeEnter (w : ℕ) (mem : ℕ → Option UInt8) (n : ℤ)
  | writeTest (w : ℕ) (mem : ℕ → Option UInt8) (n : ℤ) (i : ℕ) (owed : Bool)
  | writeKilled (w : ℕ) (mem : ℕ → Option UInt8) (n : ℤ) (i : ℕ) (owed : Bool)
  | writePut (w : ℕ) (mem : ℕ → Option UInt8) (n : ℤ) (i : ℕ) (owed : Bool)
  | writeFull (w : ℕ) (mem : ℕ → Option UInt8) (n : ℤ) (i : ℕ) (owed : Bool)
  | writeSleep (w : ℕ) (mem : ℕ → Option UInt8) (n : ℤ) (i : ℕ)
  | writeWake (i : ℕ) (owed : Bool)
  | writeDone (i : ℕ)
  | writeFail (killed : Bool)
  | readEnter (n : ℤ)
  | readTest (n : ℤ)
  | readKilled (n : ℤ)
  | readSleep (n : ℤ)
  | readCopy (r : ℕ) (n : ℤ) (i : ℕ)
  | readWake (i : ℕ) (took : Bool)
  | readDone (i : ℕ)
  | readFail
  | closeEnter (writable : Bool)
  | closeSet (writable : Bool)
  | closeWake (writable : Bool)
  | closeDone (writable : Bool)
  | kill (pid : Int32)
  | fork
  | exit (status : Int32)
  | wait

/-- `pi->data[pi->nwrite++ % PIPESIZE] = ch` -/
def put (d : Pipe) (w : ℕ) (ch : UInt8) : Pipe :=
  { d with
    data := Function.update d.data (d.nwrite.toNat % PIPESIZE) ch
    nwrite := d.nwrite + 1
    appended := d.appended ++ [(w, ch)] }

/-- `ch = pi->data[pi->nread++ % PIPESIZE]` -/
def take (d : Pipe) (r : ℕ) : Pipe :=
  { d with nread := d.nread + 1, removed := d.removed ++ [(r, d.data (d.nread.toNat % PIPESIZE))] }

def empty (d : Pipe) : Prop := d.nread = d.nwrite

def full (d : Pipe) : Prop := d.nwrite = d.nread + BitVec.ofNat 32 PIPESIZE

instance (d : Pipe) : Decidable d.empty := inferInstanceAs (Decidable (_ = _))
instance (d : Pipe) : Decidable d.full := inferInstanceAs (Decidable (_ = _))

/-- The calls are made in any order: `script` names some, and each step of a process that is in none
picks one of them. A `copyout` fails where the pick is 0. -/
def code (script : ℕ → Call) : Point → Proc.Instr Pipe Unit Addr Point
  | .idle _ => .act fun c d =>
    match script c with
    | .pipewrite mem n => some ({ d with calls := d.calls ++ [mem] }, .writeEnter d.calls.length mem n)
    | .piperead n => some (d, .readEnter n)
    | .pipeclose writable => some (d, .closeEnter writable)
    | .kkill pid => some (d, .kill pid)
    | .kfork => some (d, .fork)
    | .kexit status => some (d, .exit status)
    | .kwait => some (d, .wait)
  -- pipewrite
  | .writeEnter w mem n => .acquire () (.writeTest w mem n 0 false)
  | .writeTest w mem n i owed => .act fun _ d =>
    if (i : ℤ) < n then
      if d.readopen then some (d, .writeKilled w mem n i owed) else some (d, .writeFail false)
    else some (d, .writeWake i owed)
  | .writeKilled w mem n i owed => .killed (.writeFail true) (.writePut w mem n i owed)
  | .writePut w mem n i owed => .act fun _ d =>
    if d.full then some (d, .writeFull w mem n i owed)
    else
      match mem i with
      | none => some (d, .writeWake i owed)
      | some ch => some (d.put w ch, .writeTest w mem n (i + 1) true)
  | .writeFull w mem n i _ => .wakeup .nread (.writeSleep w mem n i)
  | .writeSleep w mem n i => .sleep .nwrite () (.writeTest w mem n i false)
  | .writeWake i _ => .wakeup .nread (.writeDone i)
  | .writeDone i => .release () (.idle i)
  | .writeFail _ => .release () (.idle (-1))
  -- piperead
  | .readEnter n => .acquire () (.readTest n)
  | .readTest n => .act fun _ d =>
    if d.empty ∧ d.writeopen = true then some (d, .readKilled n)
    else some ({ d with reads := d.reads + 1 }, .readCopy d.reads n 0)
  | .readKilled n => .killed .readFail (.readSleep n)
  | .readSleep n => .sleep .nread () (.readTest n)
  | .readCopy r n i => .act fun c d =>
    if (i : ℤ) < n then
      if d.empty then some (d, .readWake i (decide (0 < i)))
      else if c = 0 then some (d.take r, .readWake i true)
      else some (d.take r, .readCopy r n (i + 1))
    else some (d, .readWake i (decide (0 < i)))
  | .readWake i _ => .wakeup .nwrite (.readDone i)
  | .readDone i => .release () (.idle i)
  | .readFail => .release () (.idle (-1))
  -- pipeclose
  | .closeEnter writable => .acquire () (.closeSet writable)
  | .closeSet writable => .act fun _ d =>
    some (if writable then { d with writeopen := false } else { d with readopen := false }, .closeWake writable)
  | .closeWake writable => .wakeup (.waiting writable) (.closeDone writable)
  | .closeDone _ => .release () (.idle 0)
  | .kill pid => .kkill pid fun r => .idle r.toInt
  | .fork => .kfork (fun pid => .idle pid.toInt) (.idle 0)
  | .exit status => .kexit status
  | .wait => .kwait fun pid => .idle pid.toInt

/-- The pipe that `pipealloc` makes of a page. -/
def pipealloc (data : ℕ → UInt8) : Pipe where
  data := data
  nread := 0
  nwrite := 0
  readopen := true
  writeopen := true
  calls := []
  appended := []
  removed := []
  reads := 0

/-- The processes after `pipealloc`: the first one is there, in no call. -/
def start (data : ℕ → UInt8) : Proc.State Pipe Unit Addr Point := Proc.boot (pipealloc data) (.idle 0)

end Pipe

end Xv6
