import Xv6.Sanity.Entries

/-! A spinlock is held exactly while its holder is at one of a set of places; and nobody
is put to sleep by another process. -/

namespace Xv6.Proc

open Machine

variable {D Λ X C : Type}

/-- The lock `lk` is held by the process that is inside, and by nobody else. -/
structure Guarded (lk : Lock Λ) (inside : Pc Λ X C → Prop) (σ : State D Λ X C) : Prop where
  hold : ∀ c p, (σ.cpu c).run = some p → (inside (σ.pc p) ↔ σ.lock lk = some c)
  held : ∀ c, σ.lock lk = some c → ∃ p, (σ.cpu c).run = some p
  off : ∀ p, σ.Off p → ¬ inside (σ.pc p)

/-- The operation takes a process that is inside, or not, to where it is inside, or not. -/
def LockOp.Within [DecidableEq Λ] (lk : Lock Λ) (op : LockOp (Lock Λ)) (old new : Prop) : Prop :=
  match op with
  | .keep => new ↔ old
  | .take l => if l = lk then ¬ old ∧ new else (new ↔ old)
  | .drop l => if l = lk then old ∧ ¬ new else (new ↔ old)

section Guarded

variable {lk : Lock Λ} {inside : Pc Λ X C → Prop} {m : Move D Λ X C} {σ σ' : State D Λ X C} {c c' : CpuId} {p q : Slot}

/-- Whoever is inside runs and holds the lock. -/
theorem Guarded.running (h : Guarded lk inside σ) (hin : inside (σ.pc q)) :
    ∃ c, (σ.cpu c).run = some q ∧ σ.lock lk = some c := by
  have hon : ¬ σ.Off q := fun ho => h.off q ho hin
  obtain ⟨c, hc⟩ := not_forall_not.mp hon
  exact ⟨c, hc, (h.hold c q hc).mp hin⟩

/-- Two processes are not inside together. -/
theorem Guarded.alone (h : Guarded lk inside σ) (hp : inside (σ.pc p)) (hq : inside (σ.pc q)) : p = q := by
  obtain ⟨c, hc, hl⟩ := h.running hp
  obtain ⟨c', hc', hl'⟩ := h.running hq
  rw [hl] at hl'
  rw [Option.some.inj hl', hc'] at hc
  exact (Option.some.inj hc).symm

variable [DecidableEq Λ]

theorem LockOp.Within.run {op : LockOp (Lock Λ)} {old new : Prop} (hw : op.Within lk old new)
    {lock lock' : Lock Λ → Option CpuId} (h : op.run c lock = .ok lock') (hold : old ↔ lock lk = some c) :
    new ↔ lock' lk = some c := by
  cases op with
  | keep =>
    have hw : new ↔ old := hw
    rw [LockOp.run_keep h, hw, hold]
  | take l =>
    obtain ⟨-, rfl⟩ := LockOp.run_take h
    simp only [LockOp.Within] at hw
    by_cases hl : l = lk
    · rw [if_pos hl] at hw
      rw [hl, Function.update_self]
      exact iff_of_true hw.2 rfl
    · rw [if_neg hl] at hw
      rw [Function.update_of_ne (Ne.symm hl), hw, hold]
  | drop l =>
    obtain ⟨-, rfl⟩ := LockOp.run_drop h
    simp only [LockOp.Within] at hw
    by_cases hl : l = lk
    · rw [if_pos hl] at hw
      rw [hl, Function.update_self]
      exact iff_of_false hw.2 nofun
    · rw [if_neg hl] at hw
      rw [Function.update_of_ne (Ne.symm hl), hw, hold]

theorem Guarded.move [Fintype Λ] (hi : Inv σ) (h : Guarded lk inside σ) (hrun : (σ.cpu c).run = some p) (hm : m.Ok σ p)
    (hs : m.apply σ c p = .ok σ') (hw : m.lock.Within lk (inside (σ.pc p)) (inside m.pc))
    (hoff : m.off = true → m.lock = .keep) (hspawn : ∀ q k, m.spawn = some (q, k) → ¬ inside k) :
    Guarded lk inside σ' := by
  obtain ⟨plock, lock, -, hlk, hfree, rfl⟩ := Move.apply_ok hs
  have hnew := hw.run hlk (h.hold c p hrun)
  -- a process that leaves its CPU has no lock left
  have hgone : m.off = true → lock lk ≠ some c := fun ho hl => by
    rw [hoff ho] at hlk
    rw [LockOp.run_keep hlk] at hl
    exact (hfree ho).1 _ hl
  refine ⟨fun c' q hq => ?_, fun c' hc' => ?_, fun q hq => ?_⟩
  · obtain ⟨hq0, -⟩ := Move.run_of_result hq
    by_cases hqp : q = p
    · subst hqp
      rw [hi.one c' c q hq0 hrun, Move.result_pc_self]
      exact hnew
    · have hc : c' ≠ c := by
        rintro rfl
        rw [hrun] at hq0
        exact hqp (Option.some.inj hq0).symm
      rw [Move.result_pc_ne hqp fun k hk => hi.spawn_off hm hk c' hq0, h.hold c' q hq0]
      exact (LockOp.run_other hlk hc).symm
  · by_cases hc : c' = c
    · subst hc
      exact ⟨p, Move.run_result hrun (fun ho => absurd hc' (hgone ho)) hrun⟩
    · obtain ⟨q, hq⟩ := h.held c' ((LockOp.run_other hlk hc).mp hc')
      exact ⟨q, by rw [Move.result_run, if_neg fun hx => hc hx.2, hq]⟩
  · by_cases hqp : q = p
    · subst hqp
      rw [Move.result_pc_self]
      exact fun hin => hq c (Move.run_result hrun (fun ho => absurd (hnew.mp hin) (hgone ho)) hrun)
    · exact Move.result_pc (P := fun k => ¬ inside k) hqp
        (h.off q fun c' hc' => hq c' (Move.run_result hrun (fun _ => hqp) hc')) (hspawn q)

omit [DecidableEq Λ] in
/-- A step of the scheduler changes what its own CPU runs, if anything. -/
theorem scheduler_run (hrun : (σ.cpu c).run = none) (hs : scheduler c σ = .ok σ') :
    σ'.lock = σ.lock ∧ σ'.pc = σ.pc ∧ σ'.data = σ.data ∧ (∀ c', c' ≠ c → (σ'.cpu c').run = (σ.cpu c').run) ∧
    ((σ'.cpu c).run = none ∨ ∃ p, (σ'.cpu c).run = some p ∧ (σ.proc p).state = .runnable) := by
  rcases scheduler_cases hs with ⟨p, -, -, rfl⟩ | ⟨p, -, hst, rfl⟩ | ⟨p, -, -, rfl⟩ | ⟨p, -, -, rfl⟩
  · refine ⟨rfl, rfl, rfl, fun c' hc => by simp only [Function.update_of_ne hc], Or.inl ?_⟩
    simpa only [Function.update_self] using hrun
  · refine ⟨rfl, rfl, rfl, fun c' hc => by simp only [Function.update_of_ne hc], Or.inr ⟨p, ?_, hst⟩⟩
    simp only [Function.update_self]
  · refine ⟨rfl, rfl, rfl, fun c' hc => by simp only [Function.update_of_ne hc], Or.inl ?_⟩
    simpa only [Function.update_self] using hrun
  · refine ⟨rfl, rfl, rfl, fun c' hc => by simp only [Function.update_of_ne hc], Or.inl ?_⟩
    simp only [Function.update_self]

omit [DecidableEq Λ] in
theorem Guarded.scheduler (hi : Inv σ) (h : Guarded lk inside σ) (hrun : (σ.cpu c).run = none)
    (hs : scheduler c σ = .ok σ') : Guarded lk inside σ' := by
  obtain ⟨hlock, hpc, -, hcpu, hc⟩ := scheduler_run hrun hs
  have hback : ∀ c' q, (σ.cpu c').run = some q → (σ'.cpu c').run = some q := fun c' q hq => by
    rw [hcpu c', hq]
    rintro rfl
    rw [hrun] at hq
    cases hq
  refine ⟨fun c' q hq => ?_, fun c' hc' => ?_, fun q hq => ?_⟩
  · rw [hpc, hlock]
    by_cases hcc : c' = c
    · subst hcc
      rcases hc with hno | ⟨p, hp, hst⟩
      · rw [hno] at hq
        cases hq
      · obtain rfl : p = q := Option.some.inj (hp.symm.trans hq)
        have hout := h.off p (hi.off hst nofun nofun)
        refine iff_of_false hout fun hl => ?_
        obtain ⟨q', hq'⟩ := h.held c' hl
        rw [hrun] at hq'
        cases hq'
    · exact h.hold c' q (by rw [← hcpu c' hcc, hq])
  · rw [hlock] at hc'
    obtain ⟨q, hq⟩ := h.held c' hc'
    exact ⟨q, hback c' q hq⟩
  · rw [hpc]
    exact h.off q fun c' hc' => hq c' (hback c' q hc')

omit [DecidableEq Λ] in
theorem Guarded.tick (h : Guarded lk inside σ) (hy : ∀ k, inside (.yield1 k) ↔ inside k) :
    Guarded lk inside { σ with pc := Function.update σ.pc p (.yield1 (σ.pc p)) } := by
  have hin : ∀ q, inside (Function.update σ.pc p (.yield1 (σ.pc p)) q) ↔ inside (σ.pc q) := fun q => by
    by_cases hq : q = p
    · rw [hq, Function.update_self]
      exact hy _
    · rw [Function.update_of_ne hq]
  exact ⟨fun c q hq => (hin q).trans (h.hold c q hq), h.held, fun q hq => (not_congr (hin q)).mpr (h.off q hq)⟩

end Guarded

section Off

variable [DecidableEq X] {code : C → Instr D Λ X C} {m : Move D Λ X C} {σ : State D Λ X C} {p : Slot} {n : ℕ}

/-- A process takes or drops no spinlock in the step in which it leaves its CPU. -/
theorem next_off (hm : m.Ok σ p) (hn : next code σ p n = .ok m) (ho : m.off = true) : m.lock = .keep := by
  -- such a process holds its own p->lock
  obtain ⟨-, hholds, -⟩ := hm.off ho
  unfold next at hn
  generalize σ.pc p = k at hn hholds
  cases k with
  | sleep3 s | yield2 k | exit5 =>
    cases hn
    rfl
  | kill2 pid k q | fork2 k child q | fork3 k np | wait3 k q =>
    dsimp only at hn
    split_ifs at hn <;> cases hn <;> cases ho
  | sleep2 s | sleep4 s | yield3 k | forkret k | killed2 a | setkilled2 k | exit4 status | wakeup2 w q | fork7 k q pid =>
    cases hn
    cases ho
  | dead => cases hn
  | _ => cases hholds

end Off

end Xv6.Proc
