import Xv6.Sanity.Proc

/-! What the processes write into the process table and put on record, said once for all. -/

namespace Xv6.Proc

open Machine

variable {D Λ X C : Type}

/-- A process that has been started and has not ended. -/
def PState.Live : PState → Prop
  | .sleeping | .runnable | .running => True
  | _ => False

/-- The entry `e` that a move `m` of process `p` writes for `q`. -/
inductive Put (σ : State D Λ X C) (p : Slot) (m : Move D Λ X C) : Slot → PEntry X → Prop
  -- `sleep`, `wakeup`, `yield`
  | sched (q : Slot) (st : PState) (ch : Option (Chan X))
      (hst : st = (σ.proc q).state ∨ (σ.proc q).state.Live ∧ st.Live) (hlog : m.log = []) :
      Put σ p m q { σ.proc q with state := st, chan := ch }
  | setkilled (hst : (σ.proc p).state = .running) (hlog : m.log = [.setkilled p (σ.proc p).birth]) :
      Put σ p m p { σ.proc p with killed := true }
  | kill (pid : Int32) (k : Int32 → C) (q : Slot) (st : PState) (hpc : σ.pc p = .kill2 pid k q)
      (hst : st = (σ.proc q).state ∨ (σ.proc q).state.Live ∧ st.Live) (hpid : (σ.proc q).pid = pid)
      (hlog : m.log = [.kill q (σ.proc q).birth pid]) :
      Put σ p m q { σ.proc q with killed := true, state := st }
  | born (k : Int32 → C) (child : C) (q : Slot) (hpc : σ.pc p = .fork2 k child q) (hst : (σ.proc q).state = .unused)
      (hm : m.pc = .fork3 k q) (hlog : m.log = [.born q ((σ.proc q).birth + 1) σ.nextpid p (σ.proc p).birth]) :
      Put σ p m q { σ.proc q with pid := σ.nextpid, state := .used, birth := (σ.proc q).birth + 1 }
  | unborn (k : Int32 → C) (np : Slot) (hpc : σ.pc p = .fork3 k np) (hst : (σ.proc np).state = .used)
      (hm : m.pc = .run (k (-1))) (hlog : m.log = []) : Put σ p m np (freeproc (σ.proc np))
  | adopt (k : Int32 → C) (np : Slot) (pid : Int32) (hpc : σ.pc p = .fork5 k np pid) (hst : (σ.proc np).state = .used)
      (hm : m.pc = .fork6 k np pid) (hlog : m.log = []) : Put σ p m np { σ.proc np with parent := some p }
  | start (k : Int32 → C) (np : Slot) (pid : Int32) (hpc : σ.pc p = .fork7 k np pid) (hst : (σ.proc np).state = .used)
      (hm : m.pc = .run (k pid)) (hlog : m.log = []) : Put σ p m np { σ.proc np with state := .runnable }
  | reparent (status : Int32) (q : Slot) (hpc : σ.pc p = .exit2 status q) (hpar : (σ.proc q).parent = some p)
      (hm : m.pc = .wakeup1 (.reparent status (q + 1)) 0) (hlog : m.log = []) :
      Put σ p m q { σ.proc q with parent := some initproc }
  | exit (status : Int32) (hpc : σ.pc p = .exit4 status) (hst : (σ.proc p).state = .running) (hm : m.pc = .exit5)
      (hlog : m.log = [.exited p (σ.proc p).birth status]) :
      Put σ p m p { σ.proc p with xstate := status, state := .zombie }
  | reap (k : Int32 → C) (q : Slot) (hpc : σ.pc p = .wait3 k q) (hst : (σ.proc q).state = .zombie)
      (hm : m.pc = .wait4 k (σ.proc q).pid)
      (hlog : m.log = [.reaped p q (σ.proc q).birth (σ.proc q).pid (σ.proc q).xstate]) :
      Put σ p m q (freeproc (σ.proc q))

theorem slot?_some {i : ℕ} {q : Slot} (h : slot? i = some q) : q.val = i := by
  unfold slot? at h
  split_ifs at h
  exact (congrArg Fin.val (Option.some.inj h)).symm

variable {code : C → Instr D Λ X C} {m : Move D Λ X C} {σ σ' : State D Λ X C} {c : CpuId} {p q : Slot} {n : ℕ}

theorem call_put {k : C} (hn : call code σ p n k = .ok m) : m.put = none ∧ m.log = [] := by
  unfold call at hn
  generalize code k = i at hn
  cases i with
  | act f =>
    dsimp only at hn
    split at hn <;> cases hn
    exact ⟨rfl, rfl⟩
  | kexit status =>
    dsimp only at hn
    split_ifs at hn
    cases hn
    exact ⟨rfl, rfl⟩
  | _ =>
    cases hn
    exact ⟨rfl, rfl⟩

variable [DecidableEq X]

/-- A process writes at most one entry, in one of these ways. -/
theorem next_put (h : Inv σ) (hrun : (σ.cpu c).run = some p) (hn : next code σ p n = .ok m) :
    (m.put = none ∧ m.log = []) ∨ ∃ q e, m.put = some (q, e) ∧ Put σ p m q e := by
  have hlive : σ.pc p ≠ .exit5 → (σ.proc p).state = .running := h.running hrun
  have hchild := fun np => h.child p np
  unfold next at hn
  generalize hpc : σ.pc p = k at hn hlive hchild
  cases k with
  | run k => exact Or.inl (call_put hn)
  | sleep1 s | yield1 k | killed1 a | setkilled1 k | fork6 k np pid | exit3 status | sleep2 s | fork4 k np pid
  | exit1 status | wait1 k | wait4 k r | sleep5 s | yield3 k | forkret k | killed2 a | exit5 =>
    cases hn
    exact Or.inl ⟨rfl, rfl⟩
  | sleep3 s | yield2 k =>
    cases hn
    exact Or.inr ⟨p, _, rfl, .sched p _ _ (Or.inr ⟨by rw [hlive nofun]; trivial, trivial⟩) rfl⟩
  | sleep4 s =>
    cases hn
    exact Or.inr ⟨p, _, rfl, .sched p _ none (Or.inl rfl) rfl⟩
  | wakeup2 w q =>
    cases hn
    refine Or.inr ⟨q, _, rfl, ?_⟩
    split_ifs with hw
    · exact .sched q .runnable _ (Or.inr ⟨by rw [hw.1]; trivial, trivial⟩) rfl
    · exact .sched q _ _ (Or.inl rfl) rfl
  | setkilled2 k =>
    cases hn
    exact Or.inr ⟨p, _, rfl, .setkilled (hlive nofun) rfl⟩
  | kill1 pid k i | fork1 k child i =>
    dsimp only at hn
    split at hn <;> cases hn <;> exact Or.inl ⟨rfl, rfl⟩
  | kill2 pid k q =>
    dsimp only at hn
    split_ifs at hn with hpid hsl <;> cases hn
    · exact Or.inr ⟨q, _, rfl, .kill pid k q _ hpc (Or.inr ⟨by rw [hsl]; trivial, trivial⟩) hpid rfl⟩
    · exact Or.inr ⟨q, _, rfl, .kill pid k q _ hpc (Or.inl rfl) hpid rfl⟩
    · exact Or.inl ⟨rfl, rfl⟩
  | fork2 k child q =>
    dsimp only at hn
    split_ifs at hn with hu <;> cases hn
    · exact Or.inr ⟨q, _, rfl, .born k child q hpc hu rfl rfl⟩
    · exact Or.inl ⟨rfl, rfl⟩
  | fork3 k np =>
    dsimp only at hn
    split_ifs at hn <;> cases hn
    · exact Or.inr ⟨np, _, rfl, .unborn k np hpc (hchild np rfl) rfl rfl⟩
    · exact Or.inl ⟨rfl, rfl⟩
  | fork5 k np pid =>
    cases hn
    exact Or.inr ⟨np, _, rfl, .adopt k np pid hpc (hchild np rfl) rfl rfl⟩
  | fork7 k np pid =>
    cases hn
    exact Or.inr ⟨np, _, rfl, .start k np pid hpc (hchild np rfl) rfl rfl⟩
  | exit2 status i =>
    dsimp only at hn
    split at hn
    · split at hn <;> cases hn <;> exact Or.inl ⟨rfl, rfl⟩
    · rename_i q hi
      split_ifs at hn with hpar <;> cases hn
      · rw [← slot?_some hi] at hpc
        refine Or.inr ⟨q, _, rfl, .reparent status q hpc hpar ?_ rfl⟩
        rw [← slot?_some hi]
        rfl
      · exact Or.inl ⟨rfl, rfl⟩
  | exit4 status =>
    cases hn
    exact Or.inr ⟨p, _, rfl, .exit status hpc (hlive nofun) rfl rfl⟩
  | dead => cases hn
  | wakeup1 w i | wait2 k i havekids =>
    dsimp only at hn
    split at hn <;> try split_ifs at hn
    all_goals
      cases hn
      exact Or.inl ⟨rfl, rfl⟩
  | wait3 k q =>
    dsimp only at hn
    split_ifs at hn with hz <;> cases hn
    · exact Or.inl ⟨rfl, rfl⟩
    · exact Or.inr ⟨q, _, rfl, .reap k q hpc hz rfl rfl⟩
    · exact Or.inl ⟨rfl, rfl⟩

variable [DecidableEq Λ] [Fintype Λ]

omit [DecidableEq X] in
theorem Move.apply_proc {e : PEntry X} (hs : m.apply σ c p = .ok σ') (hput : m.put = some (q, e)) :
    σ'.proc = Function.update σ.proc q e ∧ σ'.log = σ.log ++ m.log := by
  obtain ⟨plock, lock, -, -, -, rfl⟩ := Move.apply_ok hs
  simp only [Move.result, hput, and_self]

omit [DecidableEq X] in
theorem Move.apply_none (hs : m.apply σ c p = .ok σ') (hput : m.put = none) (hlog : m.log = []) :
    σ'.proc = σ.proc ∧ σ'.log = σ.log := by
  obtain ⟨plock, lock, -, -, -, rfl⟩ := Move.apply_ok hs
  simp only [Move.result, hput, hlog, List.append_nil, and_self]

/-- What one step does to the table: nothing, start a process on a CPU, or what a process writes. -/
theorem step_table {a : Act} (h : Inv σ) (hs : step code a σ = .ok σ') :
    (σ'.proc = σ.proc ∧ σ'.log = σ.log) ∨
    (∃ q, (σ.proc q).state = .runnable ∧
      σ'.proc = Function.update σ.proc q { σ.proc q with state := .running } ∧ σ'.log = σ.log) ∨
    (∃ c n p m q e, a = .step c n ∧ (σ.cpu c).run = some p ∧ next code σ p n = .ok m ∧ m.apply σ c p = .ok σ' ∧
      Put σ p m q e ∧ σ'.proc = Function.update σ.proc q e ∧ σ'.log = σ.log ++ m.log) := by
  rcases step_cases hs with ⟨c, n, -, -, hs⟩ | ⟨c, n, p, m, rfl, hr, hn, hs⟩ | ⟨c, p, -, -, -, rfl⟩
  · rcases scheduler_cases hs with ⟨q, -, -, rfl⟩ | ⟨q, -, hst, rfl⟩ | ⟨q, -, -, rfl⟩ | ⟨q, -, -, rfl⟩
    · exact Or.inl ⟨rfl, rfl⟩
    · exact Or.inr (Or.inl ⟨q, hst, rfl, rfl⟩)
    · exact Or.inl ⟨rfl, rfl⟩
    · exact Or.inl ⟨rfl, rfl⟩
  · rcases next_put h hr hn with ⟨hput, hlog⟩ | ⟨q, e, hput, he⟩
    · exact Or.inl (Move.apply_none hs hput hlog)
    · obtain ⟨hproc, hlog⟩ := Move.apply_proc hs hput
      exact Or.inr (Or.inr ⟨c, n, p, m, q, e, rfl, hr, hn, hs, he, hproc, hlog⟩)
  · exact Or.inl ⟨rfl, rfl⟩

end Xv6.Proc
