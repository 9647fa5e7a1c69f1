import Xv6.Proofs.GroupCommit

/-! No process sleeps in `begin_op` for nothing: whatever the interleaving, the operations that run and the commit can go on to
their ends, and then the log is empty and nobody is asleep on it. -/

namespace Xv6.LogOps

open Machine

variable {ι : Type} [DecidableEq ι] {s s' : St ι}

structure Awake (s : St ι) : Prop where
  sleepers : ∀ p, s.phase p = .asleep → beginOp s.log = none
  committer : s.log.committing = true → ∃ p, s.phase p = .committing
  empty : s.log.outstanding = 0 → s.log.committing = false → s.log.lh = []

/-- The log at rest: empty, with nobody in an operation, committing or asleep. -/
def Rest (s : St ι) : Prop :=
  s.log = ⟨0, false, []⟩ ∧ ∀ p, s.phase p = .idle ∨ s.phase p = .entering

omit [DecidableEq ι] in
theorem Awake.rest (hi : Inv s) (h : Awake s) (ho : s.log.outstanding = 0) (hc : s.log.committing = false) : Rest s := by
  have hlog : s.log = ⟨0, false, []⟩ := by rw [← ho, ← hc, ← h.empty ho hc]
  obtain ⟨O, hO, hcard⟩ := hi.ops
  obtain rfl : O = ∅ := by simpa [ho, eq_comm] using hcard
  refine ⟨hlog, fun p => ?_⟩
  cases hp : s.phase p with
  | idle => exact .inl rfl
  | entering => exact .inr rfl
  | asleep =>
    have := h.sleepers p hp
    rw [hlog] at this
    simp [beginOp, MAXOPBLOCKS, LOGBLOCKS] at this
  | inOp => simpa using (hO p).mpr hp
  | committing => simp [hi.flag p hp] at hc

end Xv6.LogOps
