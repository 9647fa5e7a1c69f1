import Xv6.Spec.Param
import Xv6.Lib.Machine

/-! `begin_op`, `log_write` and `end_op` of `log.c` under concurrency. The
functions on `LogState` are the critical sections under `log.lock`; `step`
interleaves them over any processes. `commit()` runs outside the lock: of its
work only `log.lh.n = 0` touches the shared log state, so the disk writes before
and after it are the places where other processes run. -/

namespace Xv6.LogOps

open Machine

/-- `struct log`, less the lock and the constant `start` and `dev`. -/
structure LogState where
  outstanding : ℤ
  committing : Bool
  lh : List ℕ
  deriving DecidableEq

/-- One pass of the loop of `begin_op`: `none` is a `sleep` on the log. -/
def beginOp (l : LogState) : Option LogState :=
  if l.committing then none
  else if (l.lh.length : ℤ) + (l.outstanding + 1) * MAXOPBLOCKS > LOGBLOCKS then none
  else some { l with outstanding := l.outstanding + 1 }

/-- The first critical section of `end_op`, returning `do_commit`. -/
def endOp (l : LogState) : Except String (Bool × LogState) :=
  let l := { l with outstanding := l.outstanding - 1 }
  if l.committing then .error "log.committing"
  else if l.outstanding = 0 then .ok (true, { l with committing := true })
  else .ok (false, l)

/-- `log_write`, returning whether the buffer was pinned (the block is new in the log). -/
def logWrite (l : LogState) (b : ℕ) : Except String (Bool × LogState) :=
  if LOGBLOCKS ≤ l.lh.length then .error "too big a transaction"
  else if l.outstanding < 1 then .error "log_write outside of trans"
  else
    match l.lh.findIdx? (· == b) with
    | some i => .ok (false, { l with lh := l.lh.set i b })
    | none => .ok (true, { l with lh := l.lh ++ [b] })

/-- Where a process is in its use of the log. -/
inductive Phase where
  | idle
  | entering
  | asleep
  | inOp
  | committing
  deriving DecidableEq

variable {ι : Type} [DecidableEq ι]

/-- `wakeup(&log)`: every process asleep on the log tests its condition again. -/
def wakeup (ph : ι → Phase) : ι → Phase := fun p => if ph p = .asleep then .entering else ph p

/-- The log, the processes and three history variables. `logged p` holds the
blocks `p` passed to `log_write` since its last `begin_op`; `finished` has, for
each operation that reached its `end_op`, its blocks and the number of commits
begun before; `commits` is `log.lh` at the start of each commit. -/
structure St (ι : Type) where
  log : LogState
  phase : ι → Phase
  logged : ι → Finset ℕ
  finished : List (Finset ℕ × ℕ)
  commits : List (List ℕ)

def init : St ι where
  log := { outstanding := 0, committing := false, lh := [] }
  phase := fun _ => .idle
  logged := fun _ => ∅
  finished := []
  commits := []

inductive Act (ι : Type) where
  | enter (p : ι)
  | tryBegin (p : ι)
  | killed (p : ι)
  | logWrite (p : ι) (b : ℕ)
  | endOp (p : ι)
  | clear (p : ι)
  | endCommit (p : ι)
  deriving DecidableEq

def setPhase (s : St ι) (p : ι) (ph : Phase) : ι → Phase := Function.update s.phase p ph

def step : Act ι → St ι → Outcome (St ι)
  | .enter p, s =>
    if s.phase p = .idle then .ok { s with phase := setPhase s p .entering } else .blocked
  | .tryBegin p, s =>
    if s.phase p = .entering then
      match beginOp s.log with
      | none => .ok { s with phase := setPhase s p .asleep }
      | some l => .ok { s with
          log := l, phase := setPhase s p .inOp, logged := Function.update s.logged p ∅ }
    else .blocked
  -- `kkill` makes a sleeper runnable; it goes round the loop once more
  | .killed p, s =>
    if s.phase p = .asleep then .ok { s with phase := setPhase s p .entering } else .blocked
  | .logWrite p b, s =>
    if s.phase p = .inOp then
      match logWrite s.log b with
      | .error msg => .panic msg
      | .ok (_, l) => .ok { s with
          log := l, logged := Function.update s.logged p (insert b (s.logged p)) }
    else .blocked
  | .endOp p, s =>
    if s.phase p = .inOp then
      match endOp s.log with
      | .error msg => .panic msg
      | .ok (true, l) => .ok { s with
          log := l, phase := setPhase s p .committing
          finished := s.finished ++ [(s.logged p, s.commits.length)]
          commits := s.commits ++ [s.log.lh] }
      | .ok (false, l) => .ok { s with
          log := l, phase := wakeup (setPhase s p .idle)
          finished := s.finished ++ [(s.logged p, s.commits.length)] }
    else .blocked
  -- `log.lh.n = 0` inside `commit()`
  | .clear p, s =>
    if s.phase p = .committing then .ok { s with log := { s.log with lh := [] } } else .blocked
  -- `commit()` has returned: it does so at once, or with the log cleared
  | .endCommit p, s =>
    if s.phase p = .committing ∧ s.log.lh = [] then .ok { s with
      log := { s.log with committing := false }, phase := wakeup (setPhase s p .idle) }
    else .blocked

end Xv6.LogOps
