import Mathlib.Logic.Function.Basic
import Xv6.Lib.Machine

/-! kernel/spinlock.c and kernel/proc.c: the interrupt flag of each CPU, its nesting
count `noff` and the flag `intena` to restore, under acquire, release, push_off,
pop_off, sleep, yield, sched and scheduler. A thread runs one operation at a time
of the function it is in; other CPUs may run between any two. -/

namespace Xv6.Interrupts
open Machine

variable {C P L : Type}

inductive PState where
  | runnable
  | running
  | sleeping
  deriving DecidableEq

/-- The lock of a process, or any other spinlock. -/
inductive Lock (P L : Type) where
  | proc (p : P)
  | other (l : L)
  deriving DecidableEq

inductive Op (P L : Type) where
  | pushOff
  | popOff
  /-- acquire after its push_off -/
  | take (lk : Lock P L)
  /-- release before its pop_off -/
  | drop (lk : Lock P L)
  /-- `p->state = st; sched();` up to the swtch -/
  | sched (st : PState)
  /-- `mycpu()->intena = intena`, after the swtch -/
  | restore
  /-- the body of scheduler's loop for one process, with p->lock held -/
  | check (p : P)
  deriving DecidableEq

def acquire (lk : Lock P L) : List (Op P L) := [.pushOff, .take lk]

def release (lk : Lock P L) : List (Op P L) := [.drop lk, .popOff]

def yield (p : P) : List (Op P L) :=
  acquire (.proc p) ++ [.sched .runnable, .restore] ++ release (.proc p)

def sleep (p : P) (lk : Lock P L) : List (Op P L) :=
  acquire (.proc p) ++ release lk ++ [.sched .sleeping, .restore] ++ release (.proc p) ++ acquire lk

def forkret (p : P) : List (Op P L) := release (.proc p)

def scheduler (p : P) : List (Op P L) := acquire (.proc p) ++ [.check p] ++ release (.proc p)

structure Cpu (P : Type) where
  noff : Int32 := 0
  intena : Bool := false
  /-- SSTATUS_SIE -/
  intr : Bool := false
  /-- `none` while the CPU is in scheduler -/
  proc : Option P := none

/-- The scheduler of a CPU, or the kernel thread of a process. -/
inductive Tid (C P : Type) where
  | sched (c : C)
  | proc (p : P)
  deriving DecidableEq

structure Thread (P L : Type) where
  /-- what is left of the function the thread is in -/
  todo : List (Op P L) := []
  /-- the functions interrupts have stopped -/
  stack : List (List (Op P L)) := []
  locks : List (Lock P L) := []
  /-- the push_offs without a lock yet, no longer with one, or made for none -/
  pushes : ℕ := 0
  /-- sched's local variable -/
  intena : Bool := false
  /-- the interrupt flag when the thread last went from holding nothing to holding something -/
  was : Bool := false
  /-- forkret has not released p->lock yet -/
  fresh : Bool := true

def Thread.count (th : Thread P L) : ℕ := th.locks.length + th.pushes

structure State (C P L : Type) where
  cpu : C → Cpu P
  thread : Tid C P → Thread P L
  pstate : P → PState
  /-- lk->cpu -/
  holder : Lock P L → Option C

/-- main has started every CPU; each process waits in the context allocproc gave it. -/
def boot : State C P L where
  cpu _ := {}
  thread
    | .sched _ => {}
    | .proc p => { todo := forkret p, locks := [.proc p] }
  pstate _ := .sleeping
  holder _ := none

def State.current (σ : State C P L) (c : C) : Tid C P :=
  match (σ.cpu c).proc with
  | some p => .proc p
  | none => .sched c

def Cpu.pushOff (cpu : Cpu P) (th : Thread P L) : Cpu P × Thread P L :=
  ({ cpu with
      intr := false
      intena := if cpu.noff = 0 then cpu.intr else cpu.intena
      noff := cpu.noff + 1 },
   { th with
      was := if th.count = 0 then cpu.intr else th.was
      pushes := th.pushes + 1 })

def Cpu.popOff (cpu : Cpu P) (th : Thread P L) : Outcome (Cpu P × Thread P L) :=
  if cpu.intr then .panic "pop_off - interruptible"
  else if cpu.noff < 1 then .panic "pop_off"
  else .ok
    ({ cpu with
        noff := cpu.noff - 1
        intr := decide (cpu.noff - 1 = 0) && cpu.intena },
     { th with
        pushes := th.pushes - 1
        fresh := th.fresh && decide (th.count ≠ 1) })

section Steps

variable [DecidableEq C] [DecidableEq P] [DecidableEq L]

def State.put (σ : State C P L) (c : C) (x : Cpu P × Thread P L) : State C P L :=
  { σ with
    cpu := Function.update σ.cpu c x.1
    thread := Function.update σ.thread (σ.current c) x.2 }

/-- One operation of the thread that runs on `c`, `th` being that thread past it. -/
def Op.exec (c : C) (σ : State C P L) (th : Thread P L) : Op P L → Outcome (State C P L)
  | .pushOff => .ok (σ.put c ((σ.cpu c).pushOff th))
  | .popOff => ((σ.cpu c).popOff th).map (σ.put c)
  | .take lk =>
    match σ.holder lk with
    | some d => if d = c then .panic "acquire" else .blocked
    | none => .ok { σ.put c (σ.cpu c, { th with locks := lk :: th.locks, pushes := th.pushes - 1 }) with
        holder := Function.update σ.holder lk (some c) }
  | .drop lk =>
    if σ.holder lk = some c then
      .ok { σ.put c (σ.cpu c, { th with locks := th.locks.erase lk, pushes := th.pushes + 1 }) with
        holder := Function.update σ.holder lk none }
    else .panic "release"
  | .sched st =>
    match (σ.cpu c).proc with
    | none => .blocked
    | some p =>
      if σ.holder (.proc p) ≠ some c then .panic "sched p->lock"
      else if (σ.cpu c).noff ≠ 1 then .panic "sched locks"
      else if st = .running then .panic "sched RUNNING"
      else if (σ.cpu c).intr then .panic "sched interruptible"
      else .ok { σ.put c ({ σ.cpu c with proc := none }, { th with intena := (σ.cpu c).intena }) with
        pstate := Function.update σ.pstate p st }
  | .restore => .ok (σ.put c ({ σ.cpu c with intena := th.intena }, th))
  | .check p =>
    if (σ.cpu c).proc = none then
      if σ.pstate p = .runnable then
        .ok { σ.put c ({ σ.cpu c with proc := some p }, th) with
          pstate := Function.update σ.pstate p .running }
      else .ok (σ.put c (σ.cpu c, th))
    else .blocked

inductive Call (P L : Type) where
  | acquire (lk : Lock P L)
  | release (lk : Lock P L)
  | pushOff
  | popOff
  | sleep (lk : Lock P L)
  | yield
  /-- scheduler's loop comes to `p` -/
  | visit (p : P)
  deriving DecidableEq

/-- What a thread executes for a call: only processes sleep and yield, only schedulers look for a process. -/
def Call.code : Call P L → Option P → Option (List (Op P L))
  | .acquire lk, _ => some (Interrupts.acquire lk)
  | .release lk, _ => some (Interrupts.release lk)
  | .pushOff, _ => some [.pushOff]
  | .popOff, _ => some [.popOff]
  | .sleep lk, some p => some (Interrupts.sleep p lk)
  | .yield, some p => some (Interrupts.yield p)
  | .visit p, none => some (scheduler p)
  | _, _ => none

inductive Act (C P L : Type) where
  | step (c : C)
  | call (c : C) (k : Call P L)
  /-- intr_on and intr_off -/
  | intr (c : C) (on : Bool)
  /-- an interrupt in kernel mode -/
  | trap (c : C)
  | sret (c : C)
  /-- some process is made RUNNABLE: kfork, wakeup, kkill -/
  | wake (p : P)
  deriving DecidableEq

def step (a : Act C P L) (σ : State C P L) : Outcome (State C P L) :=
  match a with
  | .step c =>
    let th := σ.thread (σ.current c)
    match th.todo with
    | [] => .blocked
    | op :: todo => op.exec c σ { th with todo }
  | .call c k =>
    let th := σ.thread (σ.current c)
    match th.todo, k.code (σ.cpu c).proc with
    | [], some todo => .ok (σ.put c (σ.cpu c, { th with todo }))
    | _, _ => .blocked
  | .intr c on =>
    if (σ.thread (σ.current c)).todo = [] then
      .ok (σ.put c ({ σ.cpu c with intr := on }, σ.thread (σ.current c)))
    else .blocked
  | .trap c =>
    let th := σ.thread (σ.current c)
    if (σ.cpu c).intr then
      .ok (σ.put c ({ σ.cpu c with intr := false }, { th with todo := [], stack := th.todo :: th.stack }))
    else .blocked
  | .sret c =>
    let th := σ.thread (σ.current c)
    match th.todo, th.stack with
    | [], todo :: stack => .ok (σ.put c ({ σ.cpu c with intr := true }, { th with todo, stack }))
    | _, _ => .blocked
  | .wake p =>
    if σ.pstate p = .sleeping then .ok { σ with pstate := Function.update σ.pstate p .runnable }
    else .blocked

/-- A thread releases what it holds and pops what it pushed, has nothing left of either when
it sets the interrupt flag itself or returns from a trap, and calls sleep and yield
with no lock but sleep's. It never holds more than an int counts. -/
def Disciplined (σ : State C P L) (a : Act C P L) : Prop :=
  match a with
  | .step c =>
    (σ.thread (σ.current c)).todo.head? = some .pushOff → (σ.thread (σ.current c)).count + 1 < 2 ^ 31
  | .call c k =>
    let th := σ.thread (σ.current c)
    match k with
    | .release lk => lk ∈ th.locks
    | .popOff => 0 < th.pushes
    | .sleep lk => th.locks = [lk]
    | .yield => th.locks = []
    | .visit _ => th.count = 0
    | _ => True
  | .intr c _ | .sret c => (σ.thread (σ.current c)).count = 0
  | _ => True

instance (σ : State C P L) (a : Act C P L) : Decidable (Disciplined σ a) := by
  unfold Disciplined
  split
  · infer_instance
  · dsimp only
    split <;> infer_instance
  all_goals infer_instance

/-- And no thread calls sleep or yield between a push_off and its pop_off. -/
def Proper (σ : State C P L) (a : Act C P L) : Prop :=
  Disciplined σ a ∧
    match a with
    | .call c .yield | .call c (.sleep _) => (σ.thread (σ.current c)).pushes = 0
    | _ => True

instance (σ : State C P L) (a : Act C P L) : Decidable (Proper σ a) := by
  unfold Proper
  refine @instDecidableAnd _ _ _ ?_
  split <;> infer_instance

end Steps

end Xv6.Interrupts
