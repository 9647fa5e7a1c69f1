import Xv6.Sanity.LogOps

/-! Group commit: over every interleaving of `begin_op`, `log_write`, `end_op` and
`commit`, no operation overlaps a commit, and the blocks an operation logged
stay in `log.lh` until the first commit that starts after its `end_op`, which
takes all of them. -/

namespace Xv6.LogOps

open Machine

set_option linter.unusedSectionVars false

variable {ι : Type} [DecidableEq ι]

structure Inv (s : St ι) : Prop where
  ops : ∃ O : Finset ι, (∀ p, p ∈ O ↔ s.phase p = .inOp) ∧ s.log.outstanding = O.card
  flag : ∀ p, s.phase p = .committing → s.log.committing = true
  quiet : s.log.committing = true → ∀ p, s.phase p ≠ .inOp
  unique : ∀ p q, s.phase p = .committing → s.phase q = .committing → p = q
  logged : ∀ p, s.phase p = .inOp → ∀ b ∈ s.logged p, b ∈ s.log.lh
  -- a finished operation waits for its commit, or has been taken by it
  bound : ∀ e ∈ s.finished, e.2 ≤ s.commits.length
  settled : s.log.committing = true → ∀ e ∈ s.finished, e.2 < s.commits.length
  waits : ∀ e ∈ s.finished, e.2 = s.commits.length → ∀ b ∈ e.1, b ∈ s.log.lh
  taken : ∀ e ∈ s.finished, ∀ l, s.commits[e.2]? = some l → ∀ b ∈ e.1, b ∈ l
  running : s.log.committing = true → s.commits.getLast? = some s.log.lh ∨ s.log.lh = []

theorem inv_init : Inv (init : St ι) where
  ops := ⟨∅, by simp [init], by simp [init]⟩
  flag := by simp [init]
  quiet := by simp [init]
  unique := by simp [init]
  logged := by simp [init]
  bound := by simp [init]
  settled := by simp [init]
  waits := by simp [init]
  taken := by simp [init]
  running := by simp [init]

section Steps

variable {s : St ι} (h : Inv s)

include h

/-- A process that is neither in an operation nor committing may move freely. -/
theorem Inv.move {p : ι} {ph : Phase} (h1 : s.phase p ≠ .inOp) (h2 : s.phase p ≠ .committing)
    (h3 : ph ≠ .inOp) (h4 : ph ≠ .committing) : Inv { s with phase := setPhase s p ph } := by
  have hin : ∀ q, setPhase s p ph q = .inOp ↔ s.phase q = .inOp := by
    intro q
    rw [setPhase_eq_iff]
    by_cases hq : q = p
    · subst hq
      simp [h3, h1]
    · simp [hq]
  have hco : ∀ q, setPhase s p ph q = .committing ↔ s.phase q = .committing := by
    intro q
    rw [setPhase_eq_iff]
    by_cases hq : q = p
    · subst hq
      simp [h4, h2]
    · simp [hq]
  obtain ⟨O, hO, hcard⟩ := h.ops
  exact {
    ops := ⟨O, fun q => (hO q).trans (hin q).symm, hcard⟩
    flag := fun q hq => h.flag q ((hco q).mp hq)
    quiet := fun hc q hq => h.quiet hc q ((hin q).mp hq)
    unique := fun q r hq hr => h.unique q r ((hco q).mp hq) ((hco r).mp hr)
    logged := fun q hq => h.logged q ((hin q).mp hq)
    bound := h.bound
    settled := h.settled
    waits := h.waits
    taken := h.taken
    running := h.running }

theorem Inv.begin {p : ι} {l : LogState} (hp : s.phase p = .entering) (hl : beginOp s.log = some l) :
    Inv { s with log := l, phase := setPhase s p .inOp, logged := Function.update s.logged p ∅ } := by
  obtain ⟨hc, -, rfl⟩ := beginOp_some hl
  obtain ⟨O, hO, hcard⟩ := h.ops
  have hpO : p ∉ O := by simp [hO, hp]
  exact {
    ops := by
      refine ⟨insert p O, fun q => ?_, ?_⟩
      · rw [setPhase_eq_iff, Finset.mem_insert, hO]
        by_cases hq : q = p <;> simp [hq]
      · rw [Finset.card_insert_of_notMem hpO, hcard]
        push_cast
        rfl
    flag := fun q hq => by
      rw [setPhase_eq_iff] at hq
      rcases hq with ⟨-, hq⟩ | ⟨-, hq⟩
      · cases hq
      · exact h.flag q hq
    quiet := fun hcom => absurd hcom (by simp [hc])
    unique := fun q r hq hr => by
      rw [setPhase_eq_iff] at hq hr
      simp only [reduceCtorEq, and_false, false_or] at hq hr
      exact h.unique q r hq.2 hr.2
    logged := fun q hq b hb => by
      rw [setPhase_eq_iff] at hq
      dsimp only at hb ⊢
      by_cases hqp : q = p
      · subst hqp
        simp at hb
      · rw [Function.update_of_ne hqp] at hb
        exact h.logged q (by simpa [hqp] using hq) b hb
    bound := h.bound
    settled := h.settled
    waits := h.waits
    taken := h.taken
    running := h.running }

theorem Inv.write {p : ι} {b : ℕ} {new : Bool} {l : LogState} (hp : s.phase p = .inOp)
    (hl : logWrite s.log b = .ok (new, l)) :
    Inv { s with log := l, logged := Function.update s.logged p (insert b (s.logged p)) } := by
  obtain ⟨hb, hgrow, ho, hc⟩ := logWrite_ok_lh hl
  have hquiet : s.log.committing = false := by
    by_contra hne
    exact h.quiet (by simpa using hne) p hp
  obtain ⟨O, hO, hcard⟩ := h.ops
  exact {
    ops := ⟨O, hO, ho.trans hcard⟩
    flag := fun q hq => hc.trans (h.flag q hq)
    quiet := fun hcom => h.quiet (hc.symm.trans hcom)
    unique := h.unique
    logged := fun q hq c hcq => by
      dsimp only at hq hcq ⊢
      by_cases hqp : q = p
      · subst hqp
        rw [Function.update_self, Finset.mem_insert] at hcq
        rcases hcq with rfl | hcq
        · exact hb
        · exact hgrow c (h.logged q hq c hcq)
      · rw [Function.update_of_ne hqp] at hcq
        exact hgrow c (h.logged q hq c hcq)
    bound := h.bound
    settled := fun hcom => h.settled (hc.symm.trans hcom)
    waits := fun e he hk c hce => hgrow c (h.waits e he hk c hce)
    taken := h.taken
    running := fun hcom => absurd (hc.symm.trans hcom) (by simp [hquiet]) }

/-- A finished operation's record: it waits in the log, and no commit numbered
so exists yet. -/
theorem Inv.finish_entry {p : ι} (hp : s.phase p = .inOp) {l : LogState} (hlh : l.lh = s.log.lh)
    {e : Finset ℕ × ℕ} (he : e ∈ s.finished ++ [(s.logged p, s.commits.length)]) :
    e.2 ≤ s.commits.length ∧ (e.2 = s.commits.length → ∀ b ∈ e.1, b ∈ l.lh) := by
  rw [hlh]
  rcases List.mem_append.mp he with he | he
  · exact ⟨h.bound e he, h.waits e he⟩
  · rw [List.mem_singleton.mp he]
    exact ⟨le_rfl, fun _ => h.logged p hp⟩

theorem Inv.endLast {p : ι} {l : LogState} (hp : s.phase p = .inOp)
    (hl : endOp s.log = .ok (true, l)) :
    Inv { s with
      log := l, phase := setPhase s p .committing
      finished := s.finished ++ [(s.logged p, s.commits.length)]
      commits := s.commits ++ [s.log.lh] } := by
  obtain ⟨hc, hlh, ho, ⟨-, hone, hcom⟩ | ⟨hf, -⟩⟩ := endOp_ok hl
  swap; · cases hf
  obtain ⟨O, hO, hcard⟩ := h.ops
  -- the last operation: nobody else is in one
  have hO1 : O = {p} := by
    obtain ⟨q, rfl⟩ := Finset.card_eq_one.mp (by omega : O.card = 1)
    have := (hO p).mpr hp
    rw [Finset.mem_singleton.mp this]
  have hnone : ∀ q, setPhase s p .committing q ≠ .inOp := by
    intro q hq
    rw [setPhase_eq_iff] at hq
    simp only [reduceCtorEq, and_false, false_or] at hq
    have := (hO q).mpr hq.2
    rw [hO1] at this
    exact hq.1 (Finset.mem_singleton.mp this)
  have hnocommit : ∀ q, s.phase q ≠ .committing := fun q hq => by simpa [hc] using h.flag q hq
  have honly : ∀ q, setPhase s p .committing q = .committing → q = p := by
    intro q hq
    rw [setPhase_eq_iff] at hq
    rcases hq with hq | hq
    · exact hq.1
    · exact absurd hq.2 (hnocommit q)
  exact {
    ops := ⟨∅, fun q => by simp [hnone q], by simp [ho, hone]⟩
    flag := fun _ _ => hcom
    quiet := fun _ => hnone
    unique := fun q r hq hr => (honly q hq).trans (honly r hr).symm
    logged := fun q hq => absurd hq (hnone q)
    bound := fun e he => by
      have := (h.finish_entry hp hlh he).1
      simp only [List.length_append, List.length_singleton]
      omega
    settled := fun _ e he => by
      have := (h.finish_entry hp hlh he).1
      simp only [List.length_append, List.length_singleton]
      omega
    waits := fun e he hk => by
      have := (h.finish_entry hp hlh he).1
      simp only [List.length_append, List.length_singleton] at hk
      omega
    taken := fun e he l' hl' b hb => by
      rcases Nat.lt_or_eq_of_le (h.finish_entry hp hlh he).1 with hlt | heq
      · rw [List.getElem?_append_left hlt] at hl'
        rcases List.mem_append.mp he with he | he
        · exact h.taken e he l' hl' b hb
        · rw [List.mem_singleton.mp he] at hlt
          exact absurd hlt (lt_irrefl _)
      · rw [heq, List.getElem?_append_right le_rfl, Nat.sub_self] at hl'
        simp only [List.getElem?_cons_zero, Option.some.injEq] at hl'
        rw [← hl', ← hlh]
        exact (h.finish_entry hp hlh he).2 heq b hb
    running := fun _ => Or.inl (by simp [hlh]) }

theorem Inv.endOther {p : ι} {l : LogState} (hp : s.phase p = .inOp)
    (hl : endOp s.log = .ok (false, l)) :
    Inv { s with
      log := l, phase := wakeup (setPhase s p .idle)
      finished := s.finished ++ [(s.logged p, s.commits.length)] } := by
  obtain ⟨hc, hlh, ho, ⟨hf, -⟩ | ⟨-, -, hcom⟩⟩ := endOp_ok hl
  · cases hf
  obtain ⟨O, hO, hcard⟩ := h.ops
  have hin : ∀ q, wakeup (setPhase s p .idle) q = .inOp ↔ q ≠ p ∧ s.phase q = .inOp := by
    intro q
    rw [wakeup_inOp, setPhase_eq_iff]
    simp
  have hco : ∀ q, wakeup (setPhase s p .idle) q = .committing → s.phase q = .committing := by
    intro q hq
    rw [wakeup_committing, setPhase_eq_iff] at hq
    simpa using (hq.resolve_left (by simp)).2
  have hpO : p ∈ O := (hO p).mpr hp
  exact {
    ops := by
      refine ⟨O.erase p, fun q => ?_, ?_⟩
      · rw [hin, Finset.mem_erase, hO]
      · rw [Finset.card_erase_of_mem hpO, ho, hcard]
        have := Finset.card_pos.mpr ⟨p, hpO⟩
        push_cast [Nat.cast_sub this]
        rfl
    flag := fun q hq => absurd (h.flag q (hco q hq)) (by simp [hc])
    quiet := fun hcom' => absurd hcom' (by simp [hcom])
    unique := fun q r hq hr => h.unique q r (hco q hq) (hco r hr)
    logged := fun q hq b hb => by
      simp only [hlh]
      exact h.logged q ((hin q).mp hq).2 b hb
    bound := fun e he => (h.finish_entry hp hlh he).1
    settled := fun hcom' => absurd hcom' (by simp [hcom])
    waits := fun e he => (h.finish_entry hp hlh he).2
    taken := fun e he l' hl' b hb => by
      rcases List.mem_append.mp he with he | he
      · exact h.taken e he l' hl' b hb
      · rw [List.mem_singleton.mp he, List.getElem?_eq_none le_rfl] at hl'
        cases hl'
    running := fun hcom' => absurd hcom' (by simp [hcom]) }

theorem Inv.cleared {p : ι} (hp : s.phase p = .committing) :
    Inv { s with log := { s.log with lh := [] } } := by
  have hcom := h.flag p hp
  exact {
    ops := h.ops
    flag := h.flag
    quiet := h.quiet
    unique := h.unique
    logged := fun q hq => absurd hq (h.quiet hcom q)
    bound := h.bound
    settled := h.settled
    waits := fun e he hk => absurd hk (h.settled hcom e he).ne
    taken := h.taken
    running := fun _ => Or.inr rfl }

theorem Inv.endCommit {p : ι} (hp : s.phase p = .committing) :
    Inv { s with
      log := { s.log with committing := false }, phase := wakeup (setPhase s p .idle) } := by
  have hcom := h.flag p hp
  have hin : ∀ q, wakeup (setPhase s p .idle) q ≠ .inOp := by
    intro q hq
    rw [wakeup_inOp, setPhase_eq_iff] at hq
    exact h.quiet hcom q (hq.resolve_left (by simp)).2
  have hco : ∀ q, wakeup (setPhase s p .idle) q ≠ .committing := by
    intro q hq
    rw [wakeup_committing, setPhase_eq_iff] at hq
    have hq := hq.resolve_left (by simp)
    exact hq.1 (h.unique q p hq.2 hp)
  obtain ⟨O, hO, hcard⟩ := h.ops
  exact {
    ops := ⟨O, fun q => by simp [hO, h.quiet hcom q, hin q], hcard⟩
    flag := fun q hq => absurd hq (hco q)
    quiet := fun _ => hin
    unique := fun q _ hq => absurd hq (hco q)
    logged := fun q hq => absurd hq (hin q)
    bound := h.bound
    settled := fun hf => absurd hf (by simp)
    waits := fun e he hk => absurd hk (h.settled hcom e he).ne
    taken := h.taken
    running := fun hf => absurd hf (by simp) }

end Steps

theorem inv_step {s s' : St ι} {a : Act ι} (h : Inv s) (hs : step a s = .ok s') : Inv s' := by
  obtain ⟨p, ph, h1, h2, h3, h4, -, rfl⟩ | ⟨p, l, -, hp, hl, rfl⟩ | ⟨p, b, new, l, -, hp, hl, rfl⟩ |
    ⟨p, l, -, hp, hl, rfl⟩ | ⟨p, l, -, hp, hl, rfl⟩ | ⟨p, -, hp, rfl⟩ | ⟨p, -, hp, -, rfl⟩ :=
    step_cases hs
  · exact h.move h1 h2 h3 h4
  · exact h.begin hp hl
  · exact h.write hp hl
  · exact h.endLast hp hl
  · exact h.endOther hp hl
  · exact h.cleared hp
  · exact h.endCommit hp

theorem run_inv {P : St ι → Act ι → Prop} {as : List (Act ι)} {s : St ι}
    (h : Run step P init as s) : Inv s :=
  h.inv inv_init fun _ _ _ hi _ hs => inv_step hi hs

/-- A step takes blocks out of `log.lh` only if it is the `log.lh.n = 0` of a commit. -/
theorem lh_shrinks_only_by_clear {s s' : St ι} {a : Act ι} (hs : step a s = .ok s') :
    (∀ b ∈ s.log.lh, b ∈ s'.log.lh) ∨ ∃ p, a = .clear p ∧ s.phase p = .committing := by
  obtain ⟨p, ph, -, -, -, -, -, rfl⟩ | ⟨p, l, -, hp, hl, rfl⟩ | ⟨p, b, new, l, -, hp, hl, rfl⟩ |
    ⟨p, l, -, hp, hl, rfl⟩ | ⟨p, l, -, hp, hl, rfl⟩ | ⟨p, rfl, hp, rfl⟩ | ⟨p, -, hp, -, rfl⟩ :=
    step_cases hs
  · exact Or.inl fun b hb => hb
  · obtain ⟨-, -, rfl⟩ := beginOp_some hl
    exact Or.inl fun b hb => hb
  · exact Or.inl (logWrite_ok_lh hl).2.1
  · exact Or.inl fun b hb => by simpa only [(endOp_ok hl).2.1] using hb
  · exact Or.inl fun b hb => by simpa only [(endOp_ok hl).2.1] using hb
  · exact Or.inr ⟨p, rfl, hp⟩
  · exact Or.inl fun b hb => hb

/-- **Group commit.** In every state of every run: (a) while a commit runs no
process is between `begin_op` and `end_op`, so `log_write` cannot be called; (b)
the blocks of an operation in progress are in `log.lh`, those of a finished one
are still there or were all taken by commit number `e.2`, the first to start
after its `end_op`, a running commit keeps `log.lh` as it was at its start until it
clears it, and nothing else removes a block; (c) at most one commit runs and
`end_op` does not panic. -/
theorem group_commit_atomic {as : List (Act ι)} {s : St ι} (h : Run step Free init as s) :
    (∀ p, s.phase p = .committing →
      (∀ q, s.phase q ≠ .inOp) ∧ ∀ q b, step (.logWrite q b) s = .blocked) ∧
    ((∀ p, s.phase p = .inOp → ∀ b ∈ s.logged p, b ∈ s.log.lh) ∧
      (∀ e ∈ s.finished, (e.2 = s.commits.length ∧ ∀ b ∈ e.1, b ∈ s.log.lh) ∨
        ∃ l, s.commits[e.2]? = some l ∧ ∀ b ∈ e.1, b ∈ l) ∧
      (∀ p, s.phase p = .committing → s.commits.getLast? = some s.log.lh ∨ s.log.lh = []) ∧
      (∀ a s', step a s = .ok s' →
        (∀ b ∈ s.log.lh, b ∈ s'.log.lh) ∨ ∃ p, a = .clear p ∧ s.phase p = .committing)) ∧
    ((∀ p q, s.phase p = .committing → s.phase q = .committing → p = q) ∧
      ∀ p, step (.endOp p) s ≠ .panic "log.committing") := by
  have hi := run_inv h
  refine ⟨fun p hp => ?_, ⟨hi.logged, fun e he => ?_, fun p hp => hi.running (hi.flag p hp),
    fun a s' hs => lh_shrinks_only_by_clear hs⟩, hi.unique, fun p hp => ?_⟩
  · have hq := hi.quiet (hi.flag p hp)
    exact ⟨hq, fun q b => by simp [step, hq q]⟩
  · rcases Nat.lt_or_eq_of_le (hi.bound e he) with hlt | heq
    · have hl := List.getElem?_eq_getElem hlt
      exact Or.inr ⟨_, hl, hi.taken e he _ hl⟩
    · exact Or.inl ⟨heq, hi.waits e he heq⟩
  · simp only [step] at hp
    split_ifs at hp with hin
    have hc : s.log.committing = false := by
      by_contra hne
      exact hi.quiet (by simpa using hne) p hin
    unfold endOp at hp
    simp only [hc, Bool.false_eq_true, if_false] at hp
    split_ifs at hp

/-- Two operations of different processes, the second of which starts the commit. -/
def twoOps : List (Act ℕ) :=
  [.enter 0, .enter 1, .tryBegin 0, .tryBegin 1, .logWrite 0 70, .logWrite 1 71, .endOp 0, .endOp 1]

theorem group_commit_atomic_twoOps :
    ∃ s : St ℕ, Run step Free init twoOps s ∧ s.phase 1 = .committing ∧
      (∀ q, s.phase q ≠ .inOp) ∧ (∀ p, s.phase p = .committing → p = 1) := by
  obtain ⟨s, hs, hp⟩ : ∃ s : St ℕ, execIf step (fun _ _ => true) twoOps init = .ok s ∧
      s.phase 1 = .committing := ⟨_, rfl, rfl⟩
  have hrun := (run_of_execIf hs).free
  have h := group_commit_atomic hrun
  exact ⟨s, hrun, hp, (h.1 1 hp).1, fun p hp' => h.2.2.1 p 1 hp' hp⟩

end Xv6.LogOps
