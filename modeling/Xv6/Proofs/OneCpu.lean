import Xv6.Sanity.Proc

/-! A process runs on one CPU at a time, whatever the scheduler, the timer and the other
processes do, and no process is freed under a CPU that still executes on its stack. -/

namespace Xv6.Proc

open Machine

variable {D Λ X C : Type} [DecidableEq Λ] [Fintype Λ] [DecidableEq X]

/-- The slot a process at `pc` applies `freeproc` to, if its next step decides `n`. -/
def State.frees (σ : State D Λ X C) (n : ℕ) : Pc Λ X C → Option Slot
  | .fork3 _ np => if n = 0 then some np else none
  | .wait3 _ q => if (σ.proc q).state = .zombie ∧ n ≠ 0 then some q else none
  | _ => none

omit [DecidableEq Λ] [Fintype Λ] [DecidableEq X] in
/-- `c->proc` is the process on whose stack the CPU is, or the scheduler still holds its lock. -/
theorem Inv.on_stack {σ : State D Λ X C} (h : Inv σ) {c : CpuId} {p : Slot} (hfree : σ.plock p = none)
    (hc : (σ.cpu c).proc = some p) : (σ.cpu c).run = some p := by
  have hspc := (h.proc c p).mp hc
  cases hr : (σ.cpu c).run with
  | none =>
    have hheld := (h.plock c p).mpr (by rw [State.holds, hr, hspc]; rfl)
    rw [hfree] at hheld
    cases hheld
  | some q =>
    have := h.stack c q hr
    rw [hspc] at this
    rw [SPc.back.inj this]

omit [DecidableEq Λ] [Fintype Λ] [DecidableEq X] in
theorem Inv.running_iff {σ : State D Λ X C} (h : Inv σ) {p : Slot} (hfree : σ.plock p = none) :
    (σ.proc p).state = .running ↔ ∃! c, (σ.cpu c).proc = some p := by
  constructor
  · intro hs
    have hf := h.fits p
    unfold State.Fits at hf
    rw [hs] at hf
    obtain ⟨c, hc⟩ := hf
    refine ⟨c, (h.proc c p).mpr (h.stack c p hc), fun c' hc' => ?_⟩
    exact h.one c' c p (h.on_stack hfree hc') hc
  · rintro ⟨c, hc, -⟩
    have hrun := h.on_stack hfree hc
    refine h.running hrun fun hpc => ?_
    have hheld := (h.plock c p).mpr (by rw [State.holds, hrun]; simp only [hpc]; rfl)
    rw [hfree] at hheld
    cases hheld

omit [DecidableEq Λ] [Fintype Λ] [DecidableEq X] in
theorem Inv.frees_off {σ : State D Λ X C} (h : Inv σ) {c : CpuId} {p q : Slot} {n : ℕ}
    (hrun : (σ.cpu c).run = some p) (hf : σ.frees n (σ.pc p) = some q) : σ.Off q := by
  unfold State.frees at hf
  cases hpc : σ.pc p with
  | fork3 k np =>
    simp only [hpc] at hf
    split_ifs at hf
    obtain rfl := Option.some.inj hf
    have hu := h.child p np (by rw [hpc]; rfl)
    exact h.off hu nofun nofun
  | wait3 k r =>
    simp only [hpc] at hf
    split_ifs at hf with hz
    obtain rfl := Option.some.inj hf
    exact h.zombie_off hrun (by rw [hpc]; rfl) hz.1 (by rw [hpc]; exact nofun)
  | _ => simp [hpc] at hf

/-- **A process runs on one CPU at a time.** In every state reached by any interleaving: while
`p->lock` is free, `p` is `RUNNING` exactly if one CPU has it as its process; no two CPUs execute on
one kernel stack; and the process `freeproc` is about to be applied to is on no CPU's stack. -/
theorem one_cpu_per_process (code : C → Instr D Λ X C) (d : D) (k : C) (as : List Act) (u : State D Λ X C)
    (h : Run (step code) Free (boot d k) as u) :
    (∀ p, u.plock p = none → ((u.proc p).state = .running ↔ ∃! c, (u.cpu c).proc = some p)) ∧
    (∀ p c c', (u.cpu c).run = some p → (u.cpu c').run = some p → c = c') ∧
    (∀ c p n q, (u.cpu c).run = some p → u.frees n (u.pc p) = some q → ∀ c', (u.cpu c').run ≠ some q) := by
  have hi := run_inv h
  exact ⟨fun p hp => hi.running_iff hp, fun p c c' => hi.one c c' p, fun c p n q hrun hf => hi.frees_off hrun hf⟩

/-- A process that forks and waits for its child, which exits. -/
inductive ForkWait where
  | start
  | child
  | parent (pid : Int32)
  | done (r : Int32)

def ForkWait.code : ForkWait → Instr Unit Empty Empty ForkWait
  | .start => .kfork .parent .child
  | .child => .kexit 7
  | .parent _ => .kwait .done
  | .done _ => .act fun _ _ => none

/-- CPU 0 runs the first process to the end of its `kfork` and into `kwait`; CPU 1 looks at the
first process, then at the child, which it starts. -/
def forkOnTwoCpus : List Act := List.replicate 15 (.step 0 1) ++ List.replicate 5 (.step 1 0)

theorem forkOnTwoCpus_ok : (execIf (step ForkWait.code) (fun _ _ => true) forkOnTwoCpus (boot () .start)).Sat fun u =>
    u.plock 1 = none ∧ (u.proc 1).state = .running ∧ (u.cpu 0).proc = some 0 := by
  decide +kernel

theorem one_cpu_per_process_fork : ∃ u, Run (step ForkWait.code) Free (boot () .start) forkOnTwoCpus u ∧
    (u.cpu 0).proc = some 0 ∧ ∃! c, (u.cpu c).proc = some 1 := by
  obtain ⟨u, hu, hfree, hst, h0⟩ := forkOnTwoCpus_ok.ok
  have hrun := (run_of_execIf hu).free
  have hone := one_cpu_per_process ForkWait.code () .start forkOnTwoCpus u hrun
  exact ⟨u, hrun, h0, (hone.1 1 hfree).mp hst⟩

end Xv6.Proc
