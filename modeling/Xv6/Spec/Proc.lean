import Xv6.Lib.Machine
import Xv6.Spec.Param

/-! The processes of `proc.c` on several CPUs. One step is one acquisition or release
of a spinlock together with the memory accesses after or before it, or a `swtch`; the
steps of the CPUs interleave freely. What the processes do otherwise in the kernel is
left open: they run any code made of steps on data of their own, locks of their own,
and calls of the functions of `proc.c`. -/

namespace Xv6.Proc

open Machine

abbrev Slot := Fin NPROC
abbrev CpuId := Fin NCPU

/-- The first process. -/
abbrev initproc : Slot := 0

/-- `enum procstate`. -/
inductive PState where
  | unused
  | used
  | sleeping
  | runnable
  | running
  | zombie
  deriving DecidableEq

/-- The spinlocks other than `p->lock`: `wait_lock` and those of the processes' code. -/
inductive Lock (Λ : Type) where
  | wait
  | user (l : Λ)
  deriving DecidableEq

/-- The channels a process sleeps on. -/
inductive Chan (X : Type) where
  | proc (p : Slot)
  | user (x : X)
  deriving DecidableEq

/-- The part of `struct proc` these functions use. `birth` numbers the processes that
have used the slot; it is not in the kernel. -/
structure PEntry (X : Type) where
  state : PState
  chan : Option (Chan X)
  killed : Bool
  xstate : Int32
  pid : Int32
  parent : Option Slot
  birth : ℕ

/-- What the code of a process does next. `act` is a step on the data of that code;
the number picks one of its outcomes. -/
inductive Instr (D Λ X C : Type) where
  | act (f : ℕ → D → Option (D × C))
  | acquire (l : Λ) (k : C)
  | release (l : Λ) (k : C)
  | sleep (x : X) (l : Λ) (k : C)
  | wakeup (x : X) (k : C)
  | killed (yes no : C)
  | setkilled (k : C)
  | kkill (pid : Int32) (k : Int32 → C)
  | kfork (parent : Int32 → C) (child : C)
  | kexit (status : Int32)
  | kwait (k : Int32 → C)

section Pc

variable (Λ X C : Type)

/-- Who has called `sleep`. -/
inductive Sleeper where
  | user (x : X) (l : Λ) (k : C)
  | wait (k : Int32 → C)

/-- Who has called `wakeup`: in `kexit`, `reparent` does so for `initproc` after child `i`,
and then `kexit` itself for the parent. -/
inductive Waker where
  | user (x : X) (k : C)
  | reparent (status : Int32) (i : ℕ)
  | exit (status : Int32) (parent : Slot)

/-- Who has called `killed`. -/
inductive Asker where
  | user (yes no : C)
  | wait (k : Int32 → C)

/-- Where a process is in the kernel. Slots are numbered from zero in the loops over the
process table, and `NPROC` is the end. -/
inductive Pc where
  | run (k : C)
  -- `sleep`: acquire `p->lock`; release `lk`; go to sleep; wake up; acquire `lk`
  | sleep1 (s : Sleeper Λ X C)
  | sleep2 (s : Sleeper Λ X C)
  | sleep3 (s : Sleeper Λ X C)
  | sleep4 (s : Sleeper Λ X C)
  | sleep5 (s : Sleeper Λ X C)
  | wakeup1 (w : Waker X C) (i : ℕ)
  | wakeup2 (w : Waker X C) (i : Slot)
  | yield1 (k : Pc)
  | yield2 (k : Pc)
  | yield3 (k : Pc)
  | forkret (k : C)
  | killed1 (a : Asker C)
  | killed2 (a : Asker C)
  | setkilled1 (k : C)
  | setkilled2 (k : C)
  | kill1 (pid : Int32) (k : Int32 → C) (i : ℕ)
  | kill2 (pid : Int32) (k : Int32 → C) (i : Slot)
  -- `kfork`: `allocproc` up to the allocations; the rest of it and the copies; the parent; the state
  | fork1 (k : Int32 → C) (child : C) (i : ℕ)
  | fork2 (k : Int32 → C) (child : C) (i : Slot)
  | fork3 (k : Int32 → C) (np : Slot)
  | fork4 (k : Int32 → C) (np : Slot) (pid : Int32)
  | fork5 (k : Int32 → C) (np : Slot) (pid : Int32)
  | fork6 (k : Int32 → C) (np : Slot) (pid : Int32)
  | fork7 (k : Int32 → C) (np : Slot) (pid : Int32)
  -- `kexit`: `wait_lock`; `reparent`; `p->lock`; the end; `sched`
  | exit1 (status : Int32)
  | exit2 (status : Int32) (i : ℕ)
  | exit3 (status : Int32)
  | exit4 (status : Int32)
  | exit5
  | dead
  -- `kwait`: `wait_lock`; the scan; a child; the end
  | wait1 (k : Int32 → C)
  | wait2 (k : Int32 → C) (i : ℕ) (havekids : Bool)
  | wait3 (k : Int32 → C) (i : Slot)
  | wait4 (k : Int32 → C) (r : Int32)

/-- Where a CPU is in `scheduler`: about to lock a process; about to look at its state;
back from it. -/
inductive SPc where
  | scan (p : Slot)
  | check (p : Slot)
  | back (p : Slot)
  deriving DecidableEq

end Pc

/-- `struct cpu`, with the process on whose kernel stack the CPU executes. While there is
one, `spc` is what `c->context` holds. -/
structure Cpu where
  proc : Option Slot
  run : Option Slot
  spc : SPc

/-- What has happened, for the record: a process made (with the one that made it), ended, reaped
(with the parent, the value `kwait` returns and the status it hands out), marked as killed by
`kkill` or `setkilled`. -/
inductive Event where
  | born (p : Slot) (birth : ℕ) (pid : Int32) (parent : Slot) (pbirth : ℕ)
  | exited (p : Slot) (birth : ℕ) (status : Int32)
  | reaped (parent p : Slot) (birth : ℕ) (r status : Int32)
  | kill (p : Slot) (birth : ℕ) (pid : Int32)
  | setkilled (p : Slot) (birth : ℕ)
  deriving DecidableEq

structure State (D Λ X C : Type) where
  proc : Slot → PEntry X
  pc : Slot → Pc Λ X C
  plock : Slot → Option CpuId
  lock : Lock Λ → Option CpuId
  cpu : CpuId → Cpu
  nextpid : Int32
  data : D
  log : List Event

section Moves

variable {D Λ X C : Type}

/-- What a step does to a lock. -/
inductive LockOp (L : Type) where
  | keep
  | take (l : L)
  | drop (l : L)

/-- One step of a process: where it goes on, the locks it takes or drops, the entry of the
table it writes, the process it starts, whether it switches to the scheduler. -/
structure Move (D Λ X C : Type) where
  pc : Pc Λ X C
  plock : LockOp Slot
  lock : LockOp (Lock Λ)
  put : Option (Slot × PEntry X)
  spawn : Option (Slot × Pc Λ X C)
  off : Bool
  nextpid : Int32
  data : D
  log : List Event

def Move.goto (σ : State D Λ X C) (k : Pc Λ X C) : Move D Λ X C where
  pc := k
  plock := .keep
  lock := .keep
  put := none
  spawn := none
  off := false
  nextpid := σ.nextpid
  data := σ.data
  log := []

def Sleeper.chan (p : Slot) : Sleeper Λ X C → Chan X
  | .user x _ _ => .user x
  | .wait _ => .proc p

def Sleeper.lock : Sleeper Λ X C → Lock Λ
  | .user _ l _ => .user l
  | .wait _ => .wait

def Sleeper.back : Sleeper Λ X C → Pc Λ X C
  | .user _ _ k => .run k
  | .wait k => .wait2 k 0 false

def Waker.chan : Waker X C → Chan X
  | .user x _ => .user x
  | .reparent _ _ => .proc initproc
  | .exit _ q => .proc q

def Waker.back : Waker X C → Pc Λ X C
  | .user _ k => .run k
  | .reparent status i => .exit2 status i
  | .exit status _ => .exit3 status

def Asker.yes : Asker C → Pc Λ X C
  | .user yes _ => .run yes
  | .wait k => .wait4 k (-1)

def Asker.no : Asker C → Pc Λ X C
  | .user _ no => .run no
  | .wait k => .sleep1 (.wait k)

/-- `freeproc`, apart from the memory of the process. -/
def freeproc (e : PEntry X) : PEntry X :=
  { e with state := .unused, chan := none, killed := false, xstate := 0, pid := 0, parent := none }

/-- The number of a loop over the process table as a slot. -/
def slot? (i : ℕ) : Option Slot := if h : i < NPROC then some ⟨i, h⟩ else none

/-- The step of process `p` from a call of its code. -/
def call (code : C → Instr D Λ X C) (σ : State D Λ X C) (p : Slot) (n : ℕ) (k : C) : Outcome (Move D Λ X C) :=
  match code k with
  | .act f =>
    match f n σ.data with
    | some (d, k) => .ok { Move.goto σ (.run k) with data := d }
    | none => .blocked
  | .acquire l k => .ok { Move.goto σ (.run k) with lock := .take (.user l) }
  | .release l k => .ok { Move.goto σ (.run k) with lock := .drop (.user l) }
  | .sleep x l k => .ok (Move.goto σ (.sleep1 (.user x l k)))
  | .wakeup x k => .ok (Move.goto σ (.wakeup1 (.user x k) 0))
  | .killed yes no => .ok (Move.goto σ (.killed1 (.user yes no)))
  | .setkilled k => .ok (Move.goto σ (.setkilled1 k))
  | .kkill pid k => .ok (Move.goto σ (.kill1 pid k 0))
  | .kfork k child => .ok (Move.goto σ (.fork1 k child 0))
  | .kexit status => if p = initproc then .panic "init exiting" else .ok (Move.goto σ (.exit1 status))
  | .kwait k => .ok (Move.goto σ (.wait1 k))

/-- The step of process `p`; `n` decides what the model leaves open, such as whether
memory runs out (`n = 0`) or a `copyout` fails (`n = 0`). -/
def next (code : C → Instr D Λ X C) [DecidableEq X] (σ : State D Λ X C) (p : Slot) (n : ℕ) :
    Outcome (Move D Λ X C) :=
  match σ.pc p with
  | .run k => call code σ p n k
  | .sleep1 s => .ok { Move.goto σ (.sleep2 s) with plock := .take p }
  | .sleep2 s => .ok { Move.goto σ (.sleep3 s) with lock := .drop s.lock }
  | .sleep3 s =>
    .ok { Move.goto σ (.sleep4 s) with
      put := some (p, { σ.proc p with chan := some (s.chan p), state := .sleeping }), off := true }
  | .sleep4 s =>
    .ok { Move.goto σ (.sleep5 s) with put := some (p, { σ.proc p with chan := none }), plock := .drop p }
  | .sleep5 s => .ok { Move.goto σ s.back with lock := .take s.lock }
  | .wakeup1 w i =>
    match slot? i with
    | none => .ok (Move.goto σ w.back)
    | some q =>
      if q = p then .ok (Move.goto σ (.wakeup1 w (i + 1)))
      else .ok { Move.goto σ (.wakeup2 w q) with plock := .take q }
  | .wakeup2 w q =>
    let e := σ.proc q
    let e' := if e.state = .sleeping ∧ e.chan = some w.chan then { e with state := .runnable } else e
    .ok { Move.goto σ (.wakeup1 w (q + 1)) with put := some (q, e'), plock := .drop q }
  | .yield1 k => .ok { Move.goto σ (.yield2 k) with plock := .take p }
  | .yield2 k =>
    .ok { Move.goto σ (.yield3 k) with put := some (p, { σ.proc p with state := .runnable }), off := true }
  | .yield3 k => .ok { Move.goto σ k with plock := .drop p }
  | .forkret k => .ok { Move.goto σ (.run k) with plock := .drop p }
  | .killed1 a => .ok { Move.goto σ (.killed2 a) with plock := .take p }
  | .killed2 a => .ok { Move.goto σ (if (σ.proc p).killed then a.yes else a.no) with plock := .drop p }
  | .setkilled1 k => .ok { Move.goto σ (.setkilled2 k) with plock := .take p }
  | .setkilled2 k =>
    .ok { Move.goto σ (.run k) with
      put := some (p, { σ.proc p with killed := true }), plock := .drop p,
      log := [.setkilled p (σ.proc p).birth] }
  | .kill1 pid k i =>
    match slot? i with
    | none => .ok (Move.goto σ (.run (k (-1))))
    | some q => .ok { Move.goto σ (.kill2 pid k q) with plock := .take q }
  | .kill2 pid k q =>
    let e := σ.proc q
    if e.pid = pid then
      let e' := { e with killed := true, state := if e.state = .sleeping then .runnable else e.state }
      .ok { Move.goto σ (.run (k 0)) with put := some (q, e'), plock := .drop q, log := [.kill q e.birth pid] }
    else .ok { Move.goto σ (.kill1 pid k (q + 1)) with plock := .drop q }
  | .fork1 k child i =>
    match slot? i with
    | none => .ok (Move.goto σ (.run (k (-1))))
    | some q => .ok { Move.goto σ (.fork2 k child q) with plock := .take q }
  | .fork2 k child q =>
    let e := σ.proc q
    if e.state = .unused then
      .ok { Move.goto σ (.fork3 k q) with
        put := some (q, { e with pid := σ.nextpid, state := .used, birth := e.birth + 1 }),
        spawn := some (q, .forkret child), nextpid := σ.nextpid + 1,
        log := [.born q (e.birth + 1) σ.nextpid p (σ.proc p).birth] }
    else .ok { Move.goto σ (.fork1 k child (q + 1)) with plock := .drop q }
  | .fork3 k np =>
    if n = 0 then
      .ok { Move.goto σ (.run (k (-1))) with put := some (np, freeproc (σ.proc np)), plock := .drop np }
    else .ok { Move.goto σ (.fork4 k np (σ.proc np).pid) with plock := .drop np }
  | .fork4 k np pid => .ok { Move.goto σ (.fork5 k np pid) with lock := .take .wait }
  | .fork5 k np pid =>
    .ok { Move.goto σ (.fork6 k np pid) with put := some (np, { σ.proc np with parent := some p }), lock := .drop .wait }
  | .fork6 k np pid => .ok { Move.goto σ (.fork7 k np pid) with plock := .take np }
  | .fork7 k np pid =>
    .ok { Move.goto σ (.run (k pid)) with put := some (np, { σ.proc np with state := .runnable }), plock := .drop np }
  | .exit1 status => .ok { Move.goto σ (.exit2 status 0) with lock := .take .wait }
  | .exit2 status i =>
    match slot? i with
    | none =>
      match (σ.proc p).parent with
      | some q => .ok (Move.goto σ (.wakeup1 (.exit status q) 0))
      | none => .ok (Move.goto σ (.exit3 status))
    | some q =>
      if (σ.proc q).parent = some p then
        .ok { Move.goto σ (.wakeup1 (.reparent status (i + 1)) 0) with
          put := some (q, { σ.proc q with parent := some initproc }) }
      else .ok (Move.goto σ (.exit2 status (i + 1)))
  | .exit3 status => .ok { Move.goto σ (.exit4 status) with plock := .take p }
  | .exit4 status =>
    .ok { Move.goto σ .exit5 with
      put := some (p, { σ.proc p with xstate := status, state := .zombie }), lock := .drop .wait,
      log := [.exited p (σ.proc p).birth status] }
  | .exit5 => .ok { Move.goto σ .dead with off := true }
  | .dead => .panic "zombie exit"
  | .wait1 k => .ok { Move.goto σ (.wait2 k 0 false) with lock := .take .wait }
  | .wait2 k i havekids =>
    match slot? i with
    | none => if havekids then .ok (Move.goto σ (.killed1 (.wait k))) else .ok (Move.goto σ (.wait4 k (-1)))
    | some q =>
      if (σ.proc q).parent = some p then .ok { Move.goto σ (.wait3 k q) with plock := .take q }
      else .ok (Move.goto σ (.wait2 k (i + 1) havekids))
  | .wait3 k q =>
    let e := σ.proc q
    if e.state = .zombie then
      if n = 0 then .ok { Move.goto σ (.wait4 k (-1)) with plock := .drop q }
      else
        .ok { Move.goto σ (.wait4 k e.pid) with
          put := some (q, freeproc e), plock := .drop q, log := [.reaped p q e.birth e.pid e.xstate] }
    else .ok { Move.goto σ (.wait2 k (q + 1) true) with plock := .drop q }
  | .wait4 k r => .ok { Move.goto σ (.run (k r)) with lock := .drop .wait }

/-- What a lock operation of CPU `c` does to a family of locks. -/
def LockOp.run {L : Type} [DecidableEq L] (c : CpuId) (lk : L → Option CpuId) : LockOp L → Outcome (L → Option CpuId)
  | .keep => .ok lk
  | .take l =>
    match lk l with
    | none => .ok (Function.update lk l (some c))
    | some c' => if c' = c then .panic "acquire" else .blocked
  | .drop l => if lk l = some c then .ok (Function.update lk l none) else .panic "release"

variable [DecidableEq Λ] [Fintype Λ]

instance : Fintype (Lock Λ) :=
  Fintype.ofEquiv (Option Λ) ⟨fun o => o.elim .wait .user, fun | .wait => none | .user l => some l,
    fun o => by cases o <;> rfl, fun l => by cases l <;> rfl⟩

/-- CPU `c` holds no lock, apart from those in `except`. -/
def State.free (σ : State D Λ X C) (c : CpuId) (except : Option Slot) : Prop :=
  (∀ l, σ.lock l ≠ some c) ∧ ∀ q, σ.plock q = some c → except = some q

instance (σ : State D Λ X C) (c : CpuId) (except : Option Slot) : Decidable (σ.free c except) :=
  inferInstanceAs (Decidable (_ ∧ _))

/-- The state after a move of process `p` on CPU `c` that took and dropped its locks. -/
def Move.result (m : Move D Λ X C) (σ : State D Λ X C) (c : CpuId) (p : Slot) (plock : Slot → Option CpuId)
    (lock : Lock Λ → Option CpuId) : State D Λ X C where
  proc := match m.put with
    | some (q, e) => Function.update σ.proc q e
    | none => σ.proc
  pc := match m.spawn with
    | some (q, k) => Function.update (Function.update σ.pc q k) p m.pc
    | none => Function.update σ.pc p m.pc
  plock := plock
  lock := lock
  cpu := if m.off then Function.update σ.cpu c { σ.cpu c with run := none } else σ.cpu
  nextpid := m.nextpid
  data := m.data
  log := σ.log ++ m.log

/-- Take and drop the locks, and go on. `sched` panics if other locks are held. -/
def Move.apply (m : Move D Λ X C) (σ : State D Λ X C) (c : CpuId) (p : Slot) : Outcome (State D Λ X C) :=
  match m.plock.run c σ.plock, m.lock.run c σ.lock with
  | .ok plock, .ok lock =>
    if m.off ∧ ¬ σ.free c (some p) then .panic "sched locks" else .ok (m.result σ c p plock lock)
  | .panic msg, _ => .panic msg
  | _, .panic msg => .panic msg
  | _, _ => .blocked

/-- The loop of `scheduler` on CPU `c`. -/
def scheduler (c : CpuId) (σ : State D Λ X C) : Outcome (State D Λ X C) :=
  let setCpu (cpu : Cpu) : CpuId → Cpu := Function.update σ.cpu c cpu
  match (σ.cpu c).spc with
  | .scan p =>
    match σ.plock p with
    | none => .ok { σ with
        plock := Function.update σ.plock p (some c), cpu := setCpu { σ.cpu c with spc := .check p } }
    | some c' => if c' = c then .panic "acquire" else .blocked
  | .check p =>
    if (σ.proc p).state = .runnable then
      .ok { σ with
        proc := Function.update σ.proc p { σ.proc p with state := .running }
        cpu := setCpu ⟨some p, some p, .back p⟩ }
    else if σ.plock p = some c then
      .ok { σ with plock := Function.update σ.plock p none, cpu := setCpu { σ.cpu c with spc := .scan (p + 1) } }
    else .panic "release"
  | .back p =>
    if σ.plock p = some c then
      .ok { σ with plock := Function.update σ.plock p none, cpu := setCpu ⟨none, none, .scan (p + 1)⟩ }
    else .panic "release"

/-- Who does what: a step of the code a CPU is in, or a timer interrupt that makes the
running process call `yield`. -/
inductive Act where
  | step (c : CpuId) (n : ℕ)
  | tick (c : CpuId)

variable [DecidableEq X]

def step (code : C → Instr D Λ X C) : Act → State D Λ X C → Outcome (State D Λ X C)
  | .step c n, σ =>
    match (σ.cpu c).run with
    | none => scheduler c σ
    | some p =>
      match next code σ p n with
      | .ok m => m.apply σ c p
      | .blocked => .blocked
      | .panic msg => .panic msg
  | .tick c, σ =>
    match (σ.cpu c).run with
    | none => .blocked
    | some p => if σ.free c none then .ok { σ with pc := Function.update σ.pc p (.yield1 (σ.pc p)) } else .blocked

/-- An entry of the table that has not been used. -/
def PEntry.empty : PEntry X := ⟨.unused, none, false, 0, 0, none, 0⟩

/-- The system after `userinit`: the first process is ready to run `k`. -/
def boot (d : D) (k : C) : State D Λ X C where
  proc := Function.update (fun _ => PEntry.empty) initproc { PEntry.empty with state := .runnable, pid := 1 }
  pc := fun _ => .forkret k
  plock := fun _ => none
  lock := fun _ => none
  cpu := fun _ => ⟨none, none, .scan 0⟩
  nextpid := 2
  data := d
  log := []

end Moves

end Xv6.Proc
