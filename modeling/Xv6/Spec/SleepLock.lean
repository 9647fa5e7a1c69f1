import Mathlib.Logic.Function.Basic
import Xv6.Lib.Machine

/-! kernel/sleeplock.c: acquiresleep, releasesleep and holdingsleep, with the sleep and
wakeup of kernel/proc.c they call. Processes run one step at a time in any order; the fields
of a lock that are read or written together under its inner spinlock are so in one step. -/

namespace Xv6.SleepLock
open Machine

variable {n : ℕ} {L : Type}

/-- Each process has a pid of its own. -/
structure Pids (n : ℕ) where
  pid : Fin n → ℤ
  inj : Function.Injective pid

inductive PState where
  | runnable
  | running
  | sleeping
  deriving DecidableEq

inductive Phase (n : ℕ) where
  /-- acquiresleep: acquire(&lk->lk) -/
  | acq0
  /-- the test of lk->locked; after it, lk->locked = 1 and lk->pid -/
  | acq1
  /-- release(&lk->lk) -/
  | acq2
  /-- sleep: acquire(&p->lock) -/
  | slp1
  /-- release(&lk->lk) -/
  | slp2
  /-- p->chan, p->state = SLEEPING, and the swtch in sched -/
  | slp3
  /-- scheduler releases p->lock -/
  | slp4
  /-- off the CPU until scheduler finds it RUNNABLE -/
  | asleep
  /-- p->chan = 0, release(&p->lock) -/
  | slp5
  /-- acquire(&lk->lk) -/
  | slp6
  /-- releasesleep: acquire(&lk->lk) -/
  | rel0
  /-- lk->locked = 0, lk->pid = 0 -/
  | rel1
  /-- wakeup, about to lock process `i` -/
  | wake1 (i : ℕ)
  | wake2 (q : Fin n)
  /-- release(&lk->lk) -/
  | rel2
  /-- holdingsleep: acquire(&lk->lk) -/
  | hold0
  /-- r = lk->locked && (lk->pid == myproc()->pid) -/
  | hold1
  /-- release(&lk->lk), return r -/
  | hold2 (r : Bool)
  deriving DecidableEq

structure State (n : ℕ) (L : Type) where
  pc : Fin n → Option (Phase n × L)
  /-- the holder of each inner spinlock -/
  spin : L → Option (Fin n)
  /-- the holder of each p->lock; a process holds its own while scheduler hands it over -/
  plock : Fin n → Option (Fin n)
  pstate : Fin n → PState
  chan : Fin n → Option L
  locked : L → Bool
  lkpid : L → ℤ
  /-- between the return from acquiresleep and the call of releasesleep -/
  held : Fin n → L → Bool

def boot : State n L where
  pc _ := none
  spin _ := none
  plock _ := none
  pstate _ := .running
  chan _ := none
  locked _ := false
  lkpid _ := 0
  held _ _ := false

inductive LockOp (R : Type) where
  | keep
  | take (r : R)
  | drop (r : R)

def LockOp.run {R : Type} [DecidableEq R] (p : Fin n) (lk : R → Option (Fin n)) : LockOp R → Outcome (R → Option (Fin n))
  | .keep => .ok lk
  | .take r =>
    match lk r with
    | none => .ok (Function.update lk r (some p))
    | some q => if q = p then .panic "acquire" else .blocked
  | .drop r => if lk r = some p then .ok (Function.update lk r none) else .panic "release"

/-- What a process does in one step. -/
structure Move (n : ℕ) (L : Type) where
  pc : Option (Phase n × L)
  spin : LockOp L := .keep
  plock : LockOp (Fin n) := .keep
  /-- lk->locked and lk->pid -/
  lock : Option (L × Bool × ℤ) := none
  held : Option (L × Bool) := none
  /-- p->state and p->chan -/
  proc : Option (Fin n × PState × Option L) := none

section Steps

variable [DecidableEq L] (ps : Pids n)

def next (σ : State n L) (p : Fin n) (l : L) : Phase n → Outcome (Move n L)
  | .acq0 => .ok { pc := some (.acq1, l), spin := .take l }
  | .acq1 =>
    if σ.locked l then .ok { pc := some (.slp1, l) }
    else .ok { pc := some (.acq2, l), lock := some (l, true, ps.pid p) }
  | .acq2 => .ok { pc := none, spin := .drop l, held := some (l, true) }
  | .slp1 => .ok { pc := some (.slp2, l), plock := .take p }
  | .slp2 => .ok { pc := some (.slp3, l), spin := .drop l }
  | .slp3 => .ok { pc := some (.slp4, l), proc := some (p, .sleeping, some l) }
  | .slp4 => .ok { pc := some (.asleep, l), plock := .drop p }
  | .asleep =>
    if σ.pstate p = .runnable then
      .ok { pc := some (.slp5, l), plock := .take p, proc := some (p, .running, σ.chan p) }
    else .blocked
  | .slp5 => .ok { pc := some (.slp6, l), plock := .drop p, proc := some (p, σ.pstate p, none) }
  | .slp6 => .ok { pc := some (.acq1, l), spin := .take l }
  | .rel0 => .ok { pc := some (.rel1, l), spin := .take l }
  | .rel1 => .ok { pc := some (.wake1 0, l), lock := some (l, false, 0) }
  | .wake1 i =>
    if h : i < n then
      if ⟨i, h⟩ = p then .ok { pc := some (.wake1 (i + 1), l) }
      else .ok { pc := some (.wake2 ⟨i, h⟩, l), plock := .take ⟨i, h⟩ }
    else .ok { pc := some (.rel2, l) }
  | .wake2 q =>
    if σ.pstate q = .sleeping ∧ σ.chan q = some l then
      .ok { pc := some (.wake1 (q + 1), l), plock := .drop q, proc := some (q, .runnable, σ.chan q) }
    else .ok { pc := some (.wake1 (q + 1), l), plock := .drop q }
  | .rel2 => .ok { pc := none, spin := .drop l }
  | .hold0 => .ok { pc := some (.hold1, l), spin := .take l }
  | .hold1 => .ok { pc := some (.hold2 (σ.locked l && decide (σ.lkpid l = ps.pid p)), l) }
  | .hold2 _ => .ok { pc := none, spin := .drop l }

inductive Call (L : Type) where
  | acquiresleep (l : L)
  | releasesleep (l : L)
  | holdingsleep (l : L)
  deriving DecidableEq

/-- A process releases only locks it holds. -/
def Call.enter (σ : State n L) (p : Fin n) : Call L → Outcome (Move n L)
  | .acquiresleep l => .ok { pc := some (.acq0, l) }
  | .releasesleep l => if σ.held p l then .ok { pc := some (.rel0, l), held := some (l, false) } else .blocked
  | .holdingsleep l => .ok { pc := some (.hold0, l) }

def Move.locked (m : Move n L) (f : L → Bool) : L → Bool :=
  match m.lock with
  | none => f
  | some (l, b, _) => Function.update f l b

def Move.lkpid (m : Move n L) (f : L → ℤ) : L → ℤ :=
  match m.lock with
  | none => f
  | some (l, _, i) => Function.update f l i

def Move.holds (m : Move n L) (f : L → Bool) : L → Bool :=
  match m.held with
  | none => f
  | some (l, b) => Function.update f l b

def Move.pstate (m : Move n L) (f : Fin n → PState) : Fin n → PState :=
  match m.proc with
  | none => f
  | some (q, st, _) => Function.update f q st

def Move.chan (m : Move n L) (f : Fin n → Option L) : Fin n → Option L :=
  match m.proc with
  | none => f
  | some (q, _, ch) => Function.update f q ch

def State.apply (σ : State n L) (p : Fin n) (m : Move n L) : Outcome (State n L) :=
  match m.spin.run p σ.spin, m.plock.run p σ.plock with
  | .ok spin, .ok plock => .ok
    { pc := Function.update σ.pc p m.pc
      spin
      plock
      pstate := m.pstate σ.pstate
      chan := m.chan σ.chan
      locked := m.locked σ.locked
      lkpid := m.lkpid σ.lkpid
      held := Function.update σ.held p (m.holds (σ.held p)) }
  | .panic msg, _ | _, .panic msg => .panic msg
  | _, _ => .blocked

inductive Act (n : ℕ) (L : Type) where
  | call (p : Fin n) (k : Call L)
  | step (p : Fin n)
  /-- kkill makes a sleeping process RUNNABLE -/
  | kill (p : Fin n)
  deriving DecidableEq

def step (a : Act n L) (σ : State n L) : Outcome (State n L) :=
  match a with
  | .call p k =>
    match σ.pc p, k.enter σ p with
    | none, .ok m => σ.apply p m
    | _, _ => .blocked
  | .step p =>
    match σ.pc p with
    | none => .blocked
    | some (ph, l) =>
      match next ps σ p l ph with
      | .ok m => σ.apply p m
      | .blocked => .blocked
      | .panic msg => .panic msg
  | .kill p =>
    if σ.plock p = none ∧ σ.pstate p = .sleeping then
      .ok { σ with pstate := Function.update σ.pstate p .runnable }
    else .blocked

end Steps

end Xv6.SleepLock
