import Xv6.Spec.LogOps

/-! What each critical section of the log can do, and what each step can do: the
inversion lemmas the invariants of `Proofs.GroupCommit` and
`Proofs.LogReservation` are read off from. -/

namespace Xv6.LogOps

open Machine

theorem beginOp_some {l l' : LogState} (h : beginOp l = some l') :
    l.committing = false ∧ (l.lh.length : ℤ) + (l.outstanding + 1) * MAXOPBLOCKS ≤ LOGBLOCKS ∧
      l' = { l with outstanding := l.outstanding + 1 } := by
  unfold beginOp at h
  split_ifs at h with hc hn
  exact ⟨by simpa using hc, not_lt.mp hn, (Option.some.inj h).symm⟩

theorem set_findIdx (xs : List ℕ) (b i : ℕ) (h : xs.findIdx? (· == b) = some i) : xs.set i b = xs := by
  obtain ⟨hi, hb, -⟩ := List.findIdx?_eq_some_iff_getElem.mp h
  have hx : xs[i] = b := by simpa using hb
  rw [← hx, List.set_getElem_self]

/-- A successful `log_write` leaves a logged block where it is and appends a new one. -/
theorem logWrite_ok {l l' : LogState} {b : ℕ} {new : Bool} (h : logWrite l b = .ok (new, l')) :
    l.lh.length < LOGBLOCKS ∧ 1 ≤ l.outstanding ∧
      ((new = false ∧ b ∈ l.lh ∧ l' = l) ∨
       (new = true ∧ b ∉ l.lh ∧ l' = { l with lh := l.lh ++ [b] })) := by
  unfold logWrite at h
  split_ifs at h with hfull hout
  refine ⟨not_le.mp hfull, not_lt.mp hout, ?_⟩
  split at h
  · rename_i i hi
    rw [set_findIdx l.lh b i hi] at h
    simp only [Except.ok.injEq, Prod.mk.injEq] at h
    obtain ⟨hlt, hb, -⟩ := List.findIdx?_eq_some_iff_getElem.mp hi
    have hx : l.lh[i] = b := by simpa using hb
    exact Or.inl ⟨h.1.symm, hx ▸ List.getElem_mem hlt, h.2.symm⟩
  · rename_i hnone
    simp only [Except.ok.injEq, Prod.mk.injEq] at h
    refine Or.inr ⟨h.1.symm, fun hmem => ?_, h.2.symm⟩
    have := List.findIdx?_eq_none_iff.mp hnone b hmem
    simp at this

theorem logWrite_ok_lh {l l' : LogState} {b : ℕ} {new : Bool} (h : logWrite l b = .ok (new, l')) :
    b ∈ l'.lh ∧ (∀ c ∈ l.lh, c ∈ l'.lh) ∧ l'.outstanding = l.outstanding ∧
      l'.committing = l.committing := by
  obtain ⟨-, -, ⟨-, hb, rfl⟩ | ⟨-, -, rfl⟩⟩ := logWrite_ok h
  · exact ⟨hb, fun c hc => hc, rfl, rfl⟩
  · exact ⟨by simp, fun c hc => List.mem_append_left _ hc, rfl, rfl⟩

theorem endOp_ok {l l' : LogState} {doCommit : Bool} (h : endOp l = .ok (doCommit, l')) :
    l.committing = false ∧ l'.lh = l.lh ∧ l'.outstanding = l.outstanding - 1 ∧
      ((doCommit = true ∧ l.outstanding = 1 ∧ l'.committing = true) ∨
       (doCommit = false ∧ l.outstanding ≠ 1 ∧ l'.committing = false)) := by
  unfold endOp at h
  simp only at h
  split_ifs at h with hc ho
  · cases h
    exact ⟨by simpa using hc, rfl, rfl, Or.inl ⟨rfl, by omega, rfl⟩⟩
  · cases h
    exact ⟨by simpa using hc, rfl, rfl, Or.inr ⟨rfl, by omega, by simpa using hc⟩⟩

section Phases

variable {ι : Type} [DecidableEq ι] {s : St ι} {p q : ι} {ph : Phase}

theorem setPhase_self : setPhase s p ph p = ph := by simp [setPhase]

theorem setPhase_ne (h : q ≠ p) : setPhase s p ph q = s.phase q := by simp [setPhase, h]

omit [DecidableEq ι] in
/-- A wakeup moves nobody into or out of an operation or a commit. -/
theorem wakeup_inOp (f : ι → Phase) : wakeup f q = .inOp ↔ f q = .inOp := by
  unfold wakeup
  split_ifs with h
  · simp [h]
  · rfl

omit [DecidableEq ι] in
theorem wakeup_committing (f : ι → Phase) : wakeup f q = .committing ↔ f q = .committing := by
  unfold wakeup
  split_ifs with h
  · simp [h]
  · rfl

theorem setPhase_eq_iff (ph' : Phase) :
    setPhase s p ph q = ph' ↔ (q = p ∧ ph = ph') ∨ (q ≠ p ∧ s.phase q = ph') := by
  by_cases h : q = p
  · subst h
    simp [setPhase_self]
  · simp [setPhase_ne h, h]

end Phases

variable {ι : Type} [DecidableEq ι] {s s' : St ι}

/-- Everything a step can do, guards included. The three moves of a process that
is not in an operation are one case: they change its phase only. -/
theorem step_cases {a : Act ι} (h : step a s = .ok s') :
    (∃ p ph, s.phase p ≠ .inOp ∧ s.phase p ≠ .committing ∧ ph ≠ .inOp ∧ ph ≠ .committing ∧
      (∀ q b, a ≠ .logWrite q b) ∧ s' = { s with phase := setPhase s p ph }) ∨
    (∃ p l, a = .tryBegin p ∧ s.phase p = .entering ∧ beginOp s.log = some l ∧
      s' = { s with log := l, phase := setPhase s p .inOp, logged := Function.update s.logged p ∅ }) ∨
    (∃ p b new l, a = .logWrite p b ∧ s.phase p = .inOp ∧ logWrite s.log b = .ok (new, l) ∧
      s' = { s with log := l, logged := Function.update s.logged p (insert b (s.logged p)) }) ∨
    (∃ p l, a = .endOp p ∧ s.phase p = .inOp ∧ endOp s.log = .ok (true, l) ∧
      s' = { s with
        log := l, phase := setPhase s p .committing
        finished := s.finished ++ [(s.logged p, s.commits.length)]
        commits := s.commits ++ [s.log.lh] }) ∨
    (∃ p l, a = .endOp p ∧ s.phase p = .inOp ∧ endOp s.log = .ok (false, l) ∧
      s' = { s with
        log := l, phase := wakeup (setPhase s p .idle)
        finished := s.finished ++ [(s.logged p, s.commits.length)] }) ∨
    (∃ p, a = .clear p ∧ s.phase p = .committing ∧ s' = { s with log := { s.log with lh := [] } }) ∨
    (∃ p, a = .endCommit p ∧ s.phase p = .committing ∧ s.log.lh = [] ∧
      s' = { s with
        log := { s.log with committing := false }, phase := wakeup (setPhase s p .idle) }) := by
  cases a with
  | enter p =>
    simp only [step] at h
    split_ifs at h with hp
    cases h
    exact Or.inl ⟨p, .entering, by simp [hp], by simp [hp], by simp, by simp, by simp, rfl⟩
  | tryBegin p =>
    simp only [step] at h
    split_ifs at h with hp
    split at h
    · cases h
      exact Or.inl ⟨p, .asleep, by simp [hp], by simp [hp], by simp, by simp, by simp, rfl⟩
    · rename_i l hl
      cases h
      exact Or.inr (Or.inl ⟨p, l, rfl, hp, hl, rfl⟩)
  | killed p =>
    simp only [step] at h
    split_ifs at h with hp
    cases h
    exact Or.inl ⟨p, .entering, by simp [hp], by simp [hp], by simp, by simp, by simp, rfl⟩
  | logWrite p b =>
    simp only [step] at h
    split_ifs at h with hp
    split at h
    · cases h
    · rename_i new l hl
      cases h
      exact Or.inr (Or.inr (Or.inl ⟨p, b, new, l, rfl, hp, hl, rfl⟩))
  | endOp p =>
    simp only [step] at h
    split_ifs at h with hp
    split at h
    · cases h
    · rename_i l hl
      cases h
      exact Or.inr (Or.inr (Or.inr (Or.inl ⟨p, l, rfl, hp, hl, rfl⟩)))
    · rename_i l hl
      cases h
      exact Or.inr (Or.inr (Or.inr (Or.inr (Or.inl ⟨p, l, rfl, hp, hl, rfl⟩))))
  | clear p =>
    simp only [step] at h
    split_ifs at h with hp
    cases h
    exact Or.inr (Or.inr (Or.inr (Or.inr (Or.inr (Or.inl ⟨p, rfl, hp, rfl⟩)))))
  | endCommit p =>
    simp only [step] at h
    split_ifs at h with hp
    cases h
    exact Or.inr (Or.inr (Or.inr (Or.inr (Or.inr (Or.inr ⟨p, rfl, hp.1, hp.2, rfl⟩)))))

end Xv6.LogOps
