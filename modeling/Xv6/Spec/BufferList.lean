import Xv6.Lib.Machine
import Xv6.Spec.Param

/-! The list of buffers of `bio.c`, with its pointers, and what the critical sections under `bcache.lock` do to it. Beside it
stand who has a buffer, and when its count has last dropped to 0. -/

namespace Xv6.BufferList

open Machine

abbrev BufId := Fin NBUF

/-- A `struct buf *` of the list; `none` is `&bcache.head`. -/
abbrev Node := Option BufId

structure Buf where
  dev : UInt32
  blockno : UInt32
  valid : Bool
  refcnt : UInt32
  deriving DecidableEq

structure Bcache where
  next : Node → Node
  prev : Node → Node
  buf : BufId → Buf

inductive Stop where
  | panic (msg : String)
  | hang
  deriving DecidableEq

def Bcache.setNext (c : Bcache) (n m : Node) : Bcache := { c with next := Function.update c.next n m }

def Bcache.setPrev (c : Bcache) (n m : Node) : Bcache := { c with prev := Function.update c.prev n m }

def Bcache.setBuf (c : Bcache) (i : BufId) (b : Buf) : Bcache := { c with buf := Function.update c.buf i b }

/-- `b` becomes the first of the list. -/
def Bcache.pushFront (c : Bcache) (b : Node) : Bcache :=
  let c := c.setNext b (c.next none)
  let c := c.setPrev b none
  let c := c.setPrev (c.next none) b
  c.setNext none b

/-- `b` is taken out. -/
def Bcache.unlink (c : Bcache) (b : Node) : Bcache :=
  let c := c.setPrev (c.next b) (c.prev b)
  c.setNext (c.prev b) (c.next b)

def binit : Bcache :=
  (List.finRange NBUF).foldl (fun c b => c.pushFront (some b)) ⟨fun _ => none, fun _ => none, fun _ => ⟨0, 0, false, 0⟩⟩

/-- `for(; b != &bcache.head; b = step(b)) if(p(b)) ...`, `k` passes at most. -/
def scan (step : Node → Node) (p : BufId → Bool) : ℕ → Node → Except Stop (Option BufId)
  | 0, _ => .error .hang
  | _ + 1, none => .ok none
  | k + 1, some b => if p b then .ok (some b) else scan step p k (step (some b))

def bget (c : Bcache) (dev blockno : UInt32) : Except Stop (BufId × Bcache) := do
  match ← scan c.next (fun b => (c.buf b).dev = dev ∧ (c.buf b).blockno = blockno) (NBUF + 1) (c.next none) with
  | some b => return (b, c.setBuf b { c.buf b with refcnt := (c.buf b).refcnt + 1 })
  | none =>
    match ← scan c.prev (fun b => (c.buf b).refcnt = 0) (NBUF + 1) (c.prev none) with
    | some b => return (b, c.setBuf b ⟨dev, blockno, false, 1⟩)
    | none => .error (.panic "bget: no buffers")

/-- `brelse`, after `releasesleep`. -/
def brelse (c : Bcache) (b : BufId) : Bcache :=
  let c := c.setBuf b { c.buf b with refcnt := (c.buf b).refcnt - 1 }
  if (c.buf b).refcnt = 0 then (c.unlink (some b)).pushFront (some b) else c

def bpin (c : Bcache) (b : BufId) : Bcache := c.setBuf b { c.buf b with refcnt := (c.buf b).refcnt + 1 }

def bunpin (c : Bcache) (b : BufId) : Bcache := c.setBuf b { c.buf b with refcnt := (c.buf b).refcnt - 1 }

/-- The cache, how many callers have got a buffer from `bget` and not released it, how often it is pinned, and when its last
`brelse` to 0 was. -/
structure Client where
  cache : Bcache
  holders : BufId → ℕ
  pins : BufId → ℕ
  last : BufId → ℕ
  clock : ℕ

inductive Act where
  | bget (dev blockno : UInt32)
  | brelse (b : BufId)
  | bpin (b : BufId)
  | bunpin (b : BufId)

def step : Act → Client → Outcome Client
  | .bget dev blockno, σ =>
    match bget σ.cache dev blockno with
    | .ok (b, c) => .ok { σ with cache := c, holders := Function.update σ.holders b (σ.holders b + 1) }
    | .error _ => .panic "bget: no buffers"
  | .brelse b, σ =>
    let c := brelse σ.cache b
    let σ' := { σ with cache := c, holders := Function.update σ.holders b (σ.holders b - 1) }
    if (c.buf b).refcnt = 0 then .ok { σ' with last := Function.update σ.last b (σ.clock + 1), clock := σ.clock + 1 } else .ok σ'
  | .bpin b, σ => .ok { σ with cache := bpin σ.cache b, pins := Function.update σ.pins b (σ.pins b + 1) }
  | .bunpin b, σ => .ok { σ with cache := bunpin σ.cache b, pins := Function.update σ.pins b (σ.pins b - 1) }

def boot : Client := ⟨binit, fun _ => 0, fun _ => 0, fun _ => 0, 0⟩

/-- A buffer is released, and unpinned, by one who has got it. -/
def Held (σ : Client) : Act → Prop
  | .brelse b => 0 < σ.holders b
  | .bunpin b => 0 < σ.holders b
  | _ => True

/-- And `bunpin` undoes a `bpin`, and the references of a buffer are less than `2 ^ 32`. -/
def Proper (σ : Client) : Act → Prop
  | .bget _ _ => ∀ b, σ.holders b + σ.pins b + 1 < 2 ^ 32
  | .brelse b => 0 < σ.holders b
  | .bpin b => σ.holders b + σ.pins b + 1 < 2 ^ 32
  | .bunpin b => 0 < σ.holders b ∧ 0 < σ.pins b

end Xv6.BufferList
