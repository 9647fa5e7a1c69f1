import Xv6.Proofs.GroupCommit
import Mathlib.Algebra.Order.BigOperators.Group.Finset

/-! The space `begin_op` reserves. Each operation in progress still owns
`MAXOPBLOCKS` less the blocks it has logged, and the log plus everything so owned
fits in `LOGBLOCKS`. A block new to the log therefore always has room. The
capacity test of `log_write` stands before the search for an equal block, so a
repeated block in a completely full log is refused although it needs no room. -/

namespace Xv6.LogOps

open Machine

set_option linter.unusedSectionVars false

variable {ι : Type} [DecidableEq ι]

/-- No operation passes more than `MAXOPBLOCKS` distinct blocks to `log_write`. -/
def Budget (s : St ι) : Act ι → Prop
  | .logWrite p b => (insert b (s.logged p)).card ≤ MAXOPBLOCKS
  | _ => True

instance (s : St ι) (a : Act ι) : Decidable (Budget s a) := by
  cases a <;> simp only [Budget] <;> infer_instance

/-- The blocks the operations in `O` may still add. -/
def reserved (logged : ι → Finset ℕ) (O : Finset ι) : ℕ := ∑ p ∈ O, (MAXOPBLOCKS - (logged p).card)

def Room (s : St ι) : Prop :=
  ∃ O : Finset ι, (∀ p, p ∈ O ↔ s.phase p = .inOp) ∧ s.log.outstanding = O.card ∧
    s.log.lh.length + reserved s.logged O ≤ LOGBLOCKS

section Reserved

variable (logged : ι → Finset ℕ) {O : Finset ι} {p : ι}

theorem reserved_le (O : Finset ι) : reserved logged O ≤ O.card * MAXOPBLOCKS := by
  have h : reserved logged O ≤ ∑ _p ∈ O, MAXOPBLOCKS := Finset.sum_le_sum fun p _ => Nat.sub_le _ _
  simpa using h

theorem reserved_erase (hp : p ∈ O) :
    reserved logged O = (MAXOPBLOCKS - (logged p).card) + reserved logged (O.erase p) :=
  (Finset.add_sum_erase O (fun p => MAXOPBLOCKS - (logged p).card) hp).symm

/-- A logged block costs its operation one block of its reservation, unless the
operation had logged it before. -/
theorem reserved_write (hp : p ∈ O) (bs : Finset ℕ) :
    reserved (Function.update logged p bs) O =
      (MAXOPBLOCKS - bs.card) + reserved logged (O.erase p) := by
  rw [reserved_erase _ hp, Function.update_self]
  congr 1
  apply Finset.sum_congr rfl
  intro q hq
  rw [Function.update_of_ne (Finset.ne_of_mem_erase hq)]

end Reserved

theorem room_init : Room (init : St ι) := ⟨∅, by simp [init], by simp [init], by simp [init, reserved]⟩

theorem room_step {s s' : St ι} {a : Act ι} (hi : Inv s) (h : Room s) (hb : Budget s a)
    (hs : step a s = .ok s') : Room s' := by
  obtain ⟨O, hO, hcard, hroom⟩ := h
  obtain ⟨p, ph, h1, -, h3, -, -, rfl⟩ | ⟨p, l, -, hp, hl, rfl⟩ | ⟨p, b, new, l, rfl, hp, hl, rfl⟩ |
    ⟨p, l, -, hp, hl, rfl⟩ | ⟨p, l, -, hp, hl, rfl⟩ | ⟨p, -, hp, rfl⟩ | ⟨p, -, hp, hlh, rfl⟩ :=
    step_cases hs
  · refine ⟨O, fun q => ?_, hcard, hroom⟩
    rw [hO, setPhase_eq_iff]
    by_cases hq : q = p
    · subst hq
      simp [h1, h3]
    · simp [hq]
  · -- admission: the test leaves room for one more full reservation
    obtain ⟨-, htest, rfl⟩ := beginOp_some hl
    have hpO : p ∉ O := by simp [hO, hp]
    refine ⟨insert p O, fun q => ?_, ?_, ?_⟩
    · rw [setPhase_eq_iff, Finset.mem_insert, hO]
      by_cases hq : q = p <;> simp [hq]
    · rw [Finset.card_insert_of_notMem hpO, hcard]
      push_cast
      rfl
    · have hle := reserved_le (Function.update s.logged p ∅) (insert p O)
      rw [Finset.card_insert_of_notMem hpO] at hle
      rw [hcard] at htest
      simp only [MAXOPBLOCKS, LOGBLOCKS] at htest hle ⊢
      push_cast at htest
      omega
  · have hpO : p ∈ O := (hO p).mpr hp
    have hold := reserved_erase s.logged hpO
    have hnew := reserved_write s.logged hpO (insert b (s.logged p))
    have hbud : (insert b (s.logged p)).card ≤ MAXOPBLOCKS := hb
    have hmono : (s.logged p).card ≤ (insert b (s.logged p)).card :=
      Finset.card_le_card (Finset.subset_insert b _)
    refine ⟨O, hO, ?_, ?_⟩
    · exact (logWrite_ok_lh hl).2.2.1.trans hcard
    · obtain ⟨-, -, ⟨-, -, rfl⟩ | ⟨-, hbl, rfl⟩⟩ := logWrite_ok hl
      · dsimp only
        omega
      · -- new to the log, hence new to the operation: its reservation pays for it
        have hnotin : b ∉ s.logged p := fun hm => hbl (hi.logged p hp b hm)
        rw [Finset.card_insert_of_notMem hnotin] at hbud hnew
        simp only [List.length_append, List.length_singleton]
        omega
  · obtain ⟨hc, hlh, ho, ⟨-, hone, hcom⟩ | ⟨hf, -⟩⟩ := endOp_ok hl
    swap; · cases hf
    have hnone := (hi.endLast hp hl).quiet hcom
    refine ⟨∅, fun q => by simp [hnone q], by simp [ho, hone], ?_⟩
    simp only [reserved, Finset.sum_empty, hlh]
    omega
  · obtain ⟨-, hlh, ho, -⟩ := endOp_ok hl
    have hpO : p ∈ O := (hO p).mpr hp
    have hold := reserved_erase s.logged hpO
    refine ⟨O.erase p, fun q => ?_, ?_, ?_⟩
    · rw [wakeup_inOp, setPhase_eq_iff, Finset.mem_erase, hO]
      simp
    · rw [Finset.card_erase_of_mem hpO, ho, hcard]
      have := Finset.card_pos.mpr ⟨p, hpO⟩
      push_cast [Nat.cast_sub this]
      rfl
    · simp only [hlh]
      omega
  · refine ⟨O, hO, hcard, ?_⟩
    simp only [List.length_nil]
    omega
  · have hcom := hi.flag p hp
    refine ⟨O, fun q => ?_, hcard, hroom⟩
    rw [wakeup_inOp, setPhase_eq_iff, hO]
    have hq := hi.quiet hcom q
    simp [hq]

theorem run_room {as : List (Act ι)} {s : St ι} (h : Run step Budget init as s) : Inv s ∧ Room s := by
  apply h.inv (I := fun s => Inv s ∧ Room s) ⟨inv_init, room_init⟩
  intro t a u ⟨hi, hr⟩ hb hs
  exact ⟨inv_step hi hs, room_step hi hr hb hs⟩

/-- A block that is new to the log finds room. -/
theorem Room.fresh {s : St ι} (hi : Inv s) (h : Room s) {p : ι} {b : ℕ} (hp : s.phase p = .inOp)
    (hb : Budget s (.logWrite p b)) (hfresh : b ∉ s.log.lh) : s.log.lh.length < LOGBLOCKS := by
  obtain ⟨O, hO, -, hroom⟩ := h
  have hpO : p ∈ O := (hO p).mpr hp
  have hold := reserved_erase s.logged hpO
  have hnotin : b ∉ s.logged p := fun hm => hfresh (hi.logged p hp b hm)
  have hbud : (insert b (s.logged p)).card ≤ MAXOPBLOCKS := hb
  rw [Finset.card_insert_of_notMem hnotin] at hbud
  omega

theorem Room.le {s : St ι} (h : Room s) : s.log.lh.length ≤ LOGBLOCKS := by
  obtain ⟨O, -, -, hroom⟩ := h
  omega

theorem step_too_big {s : St ι} {a : Act ι} :
    step a s = .panic "too big a transaction" ↔
      ∃ p b, a = .logWrite p b ∧ s.phase p = .inOp ∧ LOGBLOCKS ≤ s.log.lh.length := by
  cases a with
  | logWrite p b =>
    simp only [step, logWrite]
    split_ifs with hp hfull hout
    · simp [hp, hfull]
    · simp [hfull]
    · constructor
      · intro h
        split at h <;> rename_i heq <;> split at heq <;> cases heq <;> cases h
      · rintro ⟨q, c, he, -, hle⟩
        exact absurd hle hfull
    · simp only [false_iff]
      rintro ⟨q, c, he, hq, -⟩
      cases he
      exact hp hq
  | endOp p =>
    simp only [step, endOp]
    split_ifs <;> simp
  | tryBegin p =>
    simp only [step]
    split_ifs
    · split <;> simp
    · simp
  | _ => simp only [step]; split_ifs <;> simp

/-- Over every run that keeps to the budget, `log_write` panics exactly on a
block that is already logged while the log is completely full. -/
theorem too_big_iff_repeat_on_full {as : List (Act ι)} {s : St ι} (h : Run step Budget init as s)
    {a : Act ι} (hb : Budget s a) :
    step a s = .panic "too big a transaction" ↔
      ∃ p b, a = .logWrite p b ∧ s.phase p = .inOp ∧ b ∈ s.log.lh ∧ s.log.lh.length = LOGBLOCKS := by
  obtain ⟨hi, hr⟩ := run_room h
  rw [step_too_big]
  constructor
  · rintro ⟨p, b, rfl, hp, hfull⟩
    refine ⟨p, b, rfl, hp, ?_, le_antisymm hr.le hfull⟩
    by_contra hfresh
    exact absurd (hr.fresh hi hp hb hfresh) (by omega)
  · rintro ⟨p, b, rfl, hp, -, hfull⟩
    exact ⟨p, b, rfl, hp, hfull.ge⟩

/-- Three processes enter, and each logs its own ten blocks: the log is full. -/
def fillLog : List (Act ℕ) :=
  (List.range 3).flatMap (fun p => [.enter p, .tryBegin p]) ++
    (List.range 30).map fun b => .logWrite (b / 10) b

theorem fillLog_exec : ∃ s : St ℕ, execIf step (fun s a => decide (Budget s a)) fillLog init = .ok s ∧
    Budget s (.logWrite 0 0) ∧ s.phase 0 = .inOp ∧ 0 ∈ s.log.lh ∧ s.log.lh.length = LOGBLOCKS :=
  ⟨_, rfl, by decide, rfl, by decide, by decide⟩

theorem fillLog_run : ∃ s : St ℕ, Run step Budget init fillLog s ∧
    Budget s (.logWrite 0 0) ∧ s.phase 0 = .inOp ∧ 0 ∈ s.log.lh ∧ s.log.lh.length = LOGBLOCKS := by
  obtain ⟨s, hs, h⟩ := fillLog_exec
  exact ⟨s, (run_of_execIf hs).mono fun t a ha => by simpa using ha, h⟩

/-- A second write of block 0 by the process that logged it stays within the
budget and panics. -/
theorem repeat_on_full_panics : ∃ s : St ℕ, Run step Budget init fillLog s ∧
    Budget s (.logWrite 0 0) ∧ step (.logWrite 0 0) s = .panic "too big a transaction" := by
  obtain ⟨s, hrun, hb, hp, -, hfull⟩ := fillLog_run
  exact ⟨s, hrun, hb, step_too_big.mpr ⟨0, 0, rfl, hp, hfull.ge⟩⟩

theorem too_big_iff_repeat_on_full_fillLog : ∃ s : St ℕ, Run step Budget init fillLog s ∧
    (step (.logWrite 0 0) s = .panic "too big a transaction" ↔
      ∃ p b, (.logWrite 0 0 : Act ℕ) = .logWrite p b ∧ s.phase p = .inOp ∧ b ∈ s.log.lh ∧
        s.log.lh.length = LOGBLOCKS) := by
  obtain ⟨s, hrun, hb, -⟩ := fillLog_run
  exact ⟨s, hrun, too_big_iff_repeat_on_full hrun hb⟩

end Xv6.LogOps
