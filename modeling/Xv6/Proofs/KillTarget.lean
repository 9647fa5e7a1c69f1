import Xv6.Sanity.Entries

/-! What `kkill` does to processes it was not asked to kill. -/

namespace Xv6.Proc

open Machine

variable {D Λ X C : Type}

/-- The entry of a free slot has no process id and no mark; any other mark was made by a call
of `kkill` with the process's own id, or of `setkilled`, while it was there. -/
structure Excused (log : List Event) (q : Slot) (e : PEntry X) : Prop where
  free : e.state = .unused → e.pid = 0 ∧ e.killed = false
  called : e.state ≠ .unused → e.killed = true → .kill q e.birth e.pid ∈ log ∨ .setkilled q e.birth ∈ log

/-- The step is not the one by which a `kkill(0)` finds its id in a slot that is `UNUSED`. -/
def spares (σ : State D Λ X C) : Act → Bool
  | .step c _ =>
    match (σ.cpu c).run with
    | some p =>
      match σ.pc p with
      | .kill2 pid _ q => pid ≠ 0 || (σ.proc q).state ≠ .unused
      | _ => true
    | none => true
  | .tick _ => true

theorem Excused.mono {log log' : List Event} {q : Slot} {e : PEntry X} (h : Excused log q e) :
    Excused (log ++ log') q e :=
  ⟨h.free, fun hs hk => (h.called hs hk).imp (List.mem_append_left _) (List.mem_append_left _)⟩

/-- A change of the state among those of a process that is there. -/
theorem Excused.sched {log : List Event} {q : Slot} {e : PEntry X} (h : Excused log q e) {st : PState}
    {ch : Option (Chan X)} (hst : st = e.state ∨ e.state.Live ∧ st.Live) :
    Excused log q { e with state := st, chan := ch } := by
  rcases hst with rfl | ⟨hold, hnew⟩
  · exact ⟨h.free, h.called⟩
  · refine ⟨fun hu => ?_, fun _ => h.called fun hu => ?_⟩
    · subst hu
      exact hnew.elim
    · rw [hu] at hold
      exact hold.elim

theorem freeproc_excused {log : List Event} {q : Slot} {e : PEntry X} : Excused log q (freeproc e) :=
  ⟨fun _ => ⟨rfl, rfl⟩, fun _ hk => by cases hk⟩

section Steps

variable {code : C → Instr D Λ X C} {m : Move D Λ X C} {σ σ' : State D Λ X C} {c : CpuId} {p q : Slot} {n : ℕ}

theorem spares_kill {pid : Int32} {k : Int32 → C} (h : spares σ (.step c n) = true) (hrun : (σ.cpu c).run = some p)
    (hpc : σ.pc p = .kill2 pid k q) : pid = 0 → (σ.proc q).state ≠ .unused := by
  simp only [spares, hrun, hpc, Bool.or_eq_true, decide_eq_true_eq] at h
  exact fun hz => h.resolve_left (absurd hz)

/-- The process that `kkill` finds is there. -/
theorem Excused.found {log : List Event} {pid : Int32} (h : Excused log q (σ.proc q)) (hpid : (σ.proc q).pid = pid)
    (hspare : pid = 0 → (σ.proc q).state ≠ .unused) : (σ.proc q).state ≠ .unused := fun hu => by
  rw [(h.free hu).1] at hpid
  exact hspare hpid.symm hu

theorem Put.excused {e : PEntry X} (he : Put σ p m q e) (h : Excused σ.log q (σ.proc q))
    (hrun : (σ.cpu c).run = some p) (hspare : spares σ (.step c n) = true) : Excused (σ.log ++ m.log) q e := by
  cases he with
  | sched q st ch hst hlog => exact h.mono.sched hst
  | setkilled hst hlog =>
    refine ⟨fun hu => ?_, fun _ _ => Or.inr ?_⟩
    · exact absurd (hst.symm.trans hu) (by decide)
    · rw [hlog]
      exact List.mem_append_right _ (List.mem_singleton.mpr rfl)
  | kill pid k q st hpc hst hpid hlog =>
    have hfound := h.found hpid (spares_kill hspare hrun hpc)
    refine ⟨fun hu => ?_, fun _ _ => Or.inl ?_⟩
    · rcases hst with rfl | ⟨-, hnew⟩
      · exact absurd hu hfound
      · have hu : st = .unused := hu
        subst hu
        exact hnew.elim
    · rw [hlog, hpid]
      exact List.mem_append_right _ (List.mem_singleton.mpr rfl)
  | born k child q hpc hst hm hlog =>
    exact ⟨nofun, fun _ hk => by rw [(h.free hst).2] at hk; cases hk⟩
  | unborn k np hpc hst hm hlog => exact freeproc_excused
  | adopt k np pid hpc hst hm hlog => exact ⟨h.free, h.mono.called⟩
  | start k np pid hpc hst hm hlog =>
    exact ⟨nofun, fun _ => h.mono.called (by rw [hst]; decide)⟩
  | reparent status q hpc hpar hm hlog => exact ⟨h.free, h.mono.called⟩
  | exit status hpc hst hm hlog =>
    exact ⟨nofun, fun _ => h.mono.called (by rw [hst]; decide)⟩
  | reap k q hpc hst hm hlog => exact freeproc_excused

variable [DecidableEq Λ] [Fintype Λ] [DecidableEq X]

theorem step_excused {a : Act} (hi : Inv σ) (h : ∀ q, Excused σ.log q (σ.proc q)) (hspare : spares σ a = true)
    (hs : step code a σ = .ok σ') (q : Slot) : Excused σ'.log q (σ'.proc q) := by
  rcases step_table hi hs with ⟨hp, hl⟩ | ⟨r, hst, hp, hl⟩ | ⟨c, n, p, m, r, e, rfl, hr, -, -, he, hp, hl⟩
  · rw [hp, hl]
    exact h q
  · rw [hp, hl]
    by_cases hq : q = r
    · subst hq
      rw [Function.update_self]
      exact (h q).sched (Or.inr ⟨by rw [hst]; trivial, trivial⟩)
    · rw [Function.update_of_ne hq]
      exact h q
  · rw [hp, hl]
    by_cases hq : q = r
    · subst hq
      rw [Function.update_self]
      exact he.excused (h q) hr hspare
    · rw [Function.update_of_ne hq]
      exact (h q).mono

omit [DecidableEq Λ] [Fintype Λ] [DecidableEq X] in
theorem boot_excused (d : D) (k : C) (q : Slot) :
    Excused (boot d k : State D Λ X C).log q ((boot d k : State D Λ X C).proc q) := by
  simp only [boot, Function.update_apply]
  split_ifs
  · exact ⟨by simp, fun _ hk => by cases hk⟩
  · exact ⟨fun _ => ⟨rfl, rfl⟩, fun _ hk => by cases hk⟩

theorem run_excused {d : D} {k : C} {as : List Act} {u : State D Λ X C}
    (h : Run (step code) (fun σ a => spares σ a = true) (boot d k) as u) (q : Slot) : Excused u.log q (u.proc q) := by
  refine (h.inv (I := fun u => Inv u ∧ ∀ q, Excused u.log q (u.proc q)) ⟨boot_inv d k, boot_excused d k⟩ ?_).2 q
  exact fun t a _ ht hp hs => ⟨ht.1.step hs, step_excused ht.1 ht.2 hp hs⟩

/-- **Kill hits only its target**, as long as no `kkill(0)` meets an `UNUSED` slot: a mark is on a
process only if it was made for it, while it was there, by a `kkill` with its own id or by
`setkilled`; a `kkill` that returns 0 has found a process; a new process has no mark. -/
theorem kill_hits_target (code : C → Instr D Λ X C) (d : D) (k : C) (as : List Act) (u : State D Λ X C)
    (h : Run (step code) (fun σ a => spares σ a = true) (boot d k) as u) :
    (∀ q, (u.proc q).state ≠ .unused → (u.proc q).killed = true →
      .kill q (u.proc q).birth (u.proc q).pid ∈ u.log ∨ .setkilled q (u.proc q).birth ∈ u.log) ∧
    (∀ c n p pid k' q u', spares u (.step c n) = true → (u.cpu c).run = some p → u.pc p = .kill2 pid k' q →
      step code (.step c n) u = .ok u' → u'.pc p = .run (k' 0) → (u.proc q).state ≠ .unused ∧ (u.proc q).pid = pid) ∧
    (∀ a q b pid p pb u', step code a u = .ok u' → u'.log = u.log ++ [.born q b pid p pb] →
      (u'.proc q).birth = b ∧ (u'.proc q).pid = pid ∧ (u'.proc q).killed = false) := by
  have hinv := run_inv h
  have hex := run_excused h
  refine ⟨fun q => (hex q).called, fun c n p pid k' q u' hspare hrun hpc hs hret => ?_,
    fun a q b pid p pb u' hs hlog => ?_⟩
  · have hfound : (u.proc q).pid = pid := by
      simp only [step, hrun, next, hpc] at hs
      by_contra hne
      rw [if_neg hne] at hs
      obtain ⟨plock, lock, -, -, -, rfl⟩ := Move.apply_ok hs
      rw [Move.result_pc_self] at hret
      cases hret
    exact ⟨(hex q).found hfound (spares_kill hspare hrun hpc), hfound⟩
  · rcases step_table hinv hs with ⟨-, hl⟩ | ⟨r, -, -, hl⟩ | ⟨c, n, p', m, r, e, rfl, -, -, -, he, hp, hl⟩
    · rw [hl] at hlog
      simp at hlog
    · rw [hl] at hlog
      simp at hlog
    · rw [hl, List.append_cancel_left_eq] at hlog
      cases he with
      | born k child r hpc hst hm hlog' =>
        rw [hlog] at hlog'
        obtain ⟨rfl, rfl, rfl, rfl, rfl⟩ := Event.born.inj (List.singleton_inj.mp hlog')
        rw [hp, Function.update_self]
        exact ⟨rfl, rfl, ((hex q).free hst).2⟩
      | sched q st ch hst hlog' | unborn k np hpc hst hm hlog' | adopt k np pid hpc hst hm hlog'
      | start k np pid hpc hst hm hlog' | reparent status q hpc hpar hm hlog' =>
        rw [hlog] at hlog'
        cases hlog'
      | setkilled hst hlog' | kill pid k q st hpc hst hpid hlog' | exit status hpc hst hm hlog'
      | reap k q hpc hst hm hlog' =>
        rw [hlog] at hlog'
        cases hlog'

end Steps

/-- The first process kills process 0, which is none; then it makes a child and kills that. -/
inductive Killer where
  | zero
  | fork
  | child
  | done
  deriving DecidableEq

def Killer.code : Killer → Instr Unit Unit Unit Killer
  | .zero => .kkill 0 fun r => if r = 0 then .fork else .done
  | .fork => .kfork (fun pid => if pid = 2 then .child else .done) .done
  | .child => .kkill 2 fun _ => .done
  | .done => .act fun _ _ => none

theorem killZero_ok :
    (execIf (step Killer.code) (fun _ _ => true) (List.replicate 18 (.step 0 1)) (boot () .zero)).Sat fun u =>
      .kill 1 0 0 ∈ u.log ∧ (u.proc 1).state = .runnable ∧ (u.proc 1).killed = true ∧ (u.proc 1).birth = 1 ∧
      (u.proc 1).pid = 2 ∧ .kill 1 1 2 ∉ u.log ∧ .setkilled 1 1 ∉ u.log := by
  decide +kernel

/-- `kkill(0)` marks an `UNUSED` slot, since the ids of these are 0, and returns 0: the first process
goes on to `kfork`, and its child is born with the mark, though nobody has asked to kill it. -/
theorem kkill_zero_marks_unused : ∃ u, Run (step Killer.code) Free (boot () .zero) (List.replicate 18 (.step 0 1)) u ∧
    .kill 1 0 0 ∈ u.log ∧ (u.proc 1).state = .runnable ∧ (u.proc 1).killed = true ∧
    ¬ (.kill 1 (u.proc 1).birth (u.proc 1).pid ∈ u.log ∨ .setkilled 1 (u.proc 1).birth ∈ u.log) := by
  obtain ⟨u, hu, hlog, hst, hk, hb, hpid, hno, hno'⟩ := killZero_ok.ok
  refine ⟨u, (run_of_execIf hu).free, hlog, hst, hk, ?_⟩
  rw [hb, hpid]
  exact fun hor => hor.elim hno hno'

theorem killChild_ok :
    (execIf (step Killer.code) spares (List.replicate 18 (.step 0 1)) (boot () .fork)).Sat fun u =>
      (u.proc 1).state ≠ .unused ∧ (u.proc 1).killed = true := by
  decide +kernel

theorem kill_hits_target_child : ∃ u,
    Run (step Killer.code) (fun σ a => spares σ a = true) (boot () .fork) (List.replicate 18 (.step 0 1)) u ∧
    (.kill 1 (u.proc 1).birth (u.proc 1).pid ∈ u.log ∨ .setkilled 1 (u.proc 1).birth ∈ u.log) := by
  obtain ⟨u, hu, hst, hk⟩ := killChild_ok.ok
  have hrun := run_of_execIf hu
  exact ⟨u, hrun, (kill_hits_target Killer.code () .fork _ u hrun).1 1 hst hk⟩

end Xv6.Proc
