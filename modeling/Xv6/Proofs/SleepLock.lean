import Mathlib.Tactic
import Xv6.Spec.SleepLock

/-! A sleep-lock has at most one holder, holdingsleep tells who it is, and nobody
sleeps on a lock that is free: whoever clears `locked` has not left the inner spinlock
before it has looked at every process. -/

namespace Xv6.SleepLock
open Machine

variable {n : ℕ} {L : Type}

/-- In the phase the process holds the inner spinlock. -/
def Phase.spins : Phase n → Bool
  | .acq1 | .acq2 | .slp1 | .slp2 | .rel1 | .wake1 _ | .wake2 _ | .rel2 | .hold1 | .hold2 _ => true
  | _ => false

/-- `locked` is set for the process, which has not returned from acquiresleep or has called releasesleep. -/
def Phase.owns : Phase n → Bool
  | .acq2 | .rel0 | .rel1 => true
  | _ => false

def Phase.waits : Phase n → Bool
  | .slp4 | .asleep => true
  | _ => false

def Phase.plock (p : Fin n) : Phase n → Option (Fin n)
  | .slp2 | .slp3 | .slp4 | .slp5 => some p
  | .wake2 q => some q
  | _ => none

/-- The lock a process is at in a phase of the given kind. -/
def lockAt (f : Phase n → Bool) : Option (Phase n × L) → Option L
  | none => none
  | some (ph, l) => if f ph then some l else none

def plockAt (p : Fin n) : Option (Phase n × L) → Option (Fin n)
  | none => none
  | some (ph, _) => ph.plock p

/-- Nothing, except that wakeup has yet to come to process `j`. -/
def Owes (l : L) (j : Fin n) : Option (Phase n × L) → Prop
  | some (.wake1 i, l') => l' = l ∧ i ≤ j
  | some (.wake2 q, l') => l' = l ∧ q ≤ j
  | _ => False

/-- The process is asleep on `l`, or will be without another look at it. -/
def Committed (pc : Option (Phase n × L)) (st : PState) (l : L) : Prop :=
  pc = some (.slp3, l) ∨ st = .sleeping ∧ lockAt Phase.waits pc = some l

/-- What a process has seen of the lock it holds the inner spinlock of. -/
def Sees (locked held : L → Bool) : Option (Phase n × L) → Prop
  | some (.slp1, l) | some (.slp2, l) => locked l = true
  | some (.hold2 r, l) => r = held l
  | _ => True

structure Inv (ps : Pids n) (σ : State n L) (owner : L → Option (Fin n)) : Prop where
  spin : ∀ p l, σ.spin l = some p ↔ lockAt Phase.spins (σ.pc p) = some l
  plock : ∀ p q, σ.plock q = some p ↔ plockAt p (σ.pc p) = some q
  own : ∀ p l, (σ.held p l = true ∨ lockAt Phase.owns (σ.pc p) = some l) ↔ owner l = some p
  once : ∀ p l, σ.held p l = true → lockAt Phase.owns (σ.pc p) ≠ some l
  locked : ∀ l, σ.locked l = (owner l).isSome
  lkpid : ∀ l p, owner l = some p → σ.lkpid l = ps.pid p
  sees : ∀ p, Sees σ.locked (σ.held p) (σ.pc p)
  chan : ∀ p l, lockAt Phase.waits (σ.pc p) = some l → σ.chan p = some l
  asleep : ∀ p, σ.pstate p = .sleeping → ∃ l, lockAt Phase.waits (σ.pc p) = some l
  owed : ∀ p l, Committed (σ.pc p) (σ.pstate p) l → σ.locked l = true ∨ ∃ q, Owes l p (σ.pc q)

def LockOp.Shift {R : Type} (old new : Option R) : LockOp R → Prop
  | .keep => new = old
  | .take r => old = none ∧ new = some r
  | .drop r => old = some r ∧ new = none

/-- What each process holds stays what the locks say. -/
theorem LockOp.Shift.run {R : Type} [DecidableEq R] {op : LockOp R} {p : Fin n} {own : Fin n → Option R}
    {lk lk' : R → Option (Fin n)} {new : Option R} (hs : op.Shift (own p) new)
    (h : ∀ q r, lk r = some q ↔ own q = some r) (hr : op.run p lk = .ok lk') (q : Fin n) (r : R) :
    lk' r = some q ↔ Function.update own p new q = some r := by
  cases op with
  | keep =>
    obtain rfl := Outcome.ok.inj hr
    rw [show new = own p from hs, Function.update_eq_self]
    exact h q r
  | take r' =>
    obtain ⟨hold, rfl⟩ := hs
    simp only [LockOp.run] at hr
    split at hr
    · next hfree =>
      obtain rfl := Outcome.ok.inj hr
      have hq := h q r
      simp only [Function.update_apply]
      split_ifs with hrr hqp hqp
      · simp [hrr, hqp]
      · rw [← hq, hrr, hfree]
        simp [Ne.symm hqp]
      · rw [hq, hqp, hold]
        simp [Ne.symm hrr]
      · exact hq
    · split_ifs at hr
  | drop r' =>
    obtain ⟨hold, rfl⟩ := hs
    simp only [LockOp.run] at hr
    split_ifs at hr with hown
    obtain rfl := Outcome.ok.inj hr
    have hq := h q r
    simp only [Function.update_apply]
    split_ifs with hrr hqp hqp
    · simp
    · rw [← hq, hrr, hown]
      simp [Ne.symm hqp]
    · rw [hq, hqp, hold]
      simp [Ne.symm hrr]
    · exact hq

theorem Committed.not_owes {pc : Option (Phase n × L)} {st : PState} {l l' : L} {j : Fin n} (h : Committed pc st l) :
    ¬ Owes l' j pc := by
  rcases h with rfl | ⟨-, h⟩
  · exact id
  · match pc, h with
    | some (.slp4, _), _ => exact id
    | some (.asleep, _), _ => exact id

/-- Others who hold an inner spinlock have seen what is still so. -/
theorem Sees.of_others {locked locked' held : L → Bool} {x : Option (Phase n × L)} (h : Sees locked held x)
    (hl : ∀ l, lockAt Phase.spins x = some l → locked' l = locked l) : Sees locked' held x := by
  rcases x with _ | ⟨ph, l⟩
  · trivial
  · cases ph with
    | slp1 | slp2 => exact (hl l rfl).trans h
    | _ => exact h

theorem Owes.spins {x : Option (Phase n × L)} {l : L} {j : Fin n} (h : Owes l j x) :
    lockAt Phase.spins x = some l := by
  match x, h with
  | some (.wake1 _, _), h => exact congrArg some h.1
  | some (.wake2 _, _), h => exact congrArg some h.1

section Invariant

variable {ps : Pids n} {σ : State n L} {owner : L → Option (Fin n)} {p : Fin n} {l : L}

theorem inv_boot : Inv ps (boot : State n L) fun _ => none := by
  refine ⟨fun _ _ => ⟨nofun, nofun⟩, fun _ _ => ⟨nofun, nofun⟩, fun _ _ => ⟨?_, nofun⟩, nofun, fun _ => rfl, nofun,
    fun _ => trivial, nofun, nofun, ?_⟩
  · rintro (h | h) <;> cases h
  · rintro _ _ (h | ⟨h, -⟩) <;> cases h

/-- A process that wakeup has locked is not on its way to sleep. -/
theorem Inv.not_slp3 {q : Fin n} (h : Inv ps σ owner) (hx : σ.pc p = some (.wake2 q, l)) (hq : q ≠ p) (l' : L) :
    σ.pc q ≠ some (.slp3, l') := by
  intro hy
  have h1 := (h.plock p q).mpr (by rw [hx]; rfl)
  have h2 := (h.plock q q).mpr (by rw [hy]; rfl)
  rw [h1] at h2
  exact hq (Option.some.inj h2).symm

theorem Inv.holding (h : Inv ps σ owner) (hx : σ.pc p = some (.hold1, l)) :
    (σ.locked l && decide (σ.lkpid l = ps.pid p)) = σ.held p l := by
  have hown := h.own p l
  rw [hx] at hown
  rw [h.locked, Bool.eq_iff_iff]
  cases ho : owner l with
  | none =>
    rw [ho] at hown
    simpa [lockAt, Phase.owns] using hown
  | some q =>
    rw [ho] at hown
    rw [h.lkpid l q ho]
    simpa [lockAt, Phase.owns, ps.inj.eq_iff] using hown.symm

/-- kkill only wakes. -/
theorem Inv.kill (h : Inv ps σ owner) (q : Fin n) :
    Inv ps { σ with pstate := Function.update σ.pstate q .runnable } owner := by
  have hst : ∀ {j}, Function.update σ.pstate q .runnable j = .sleeping → σ.pstate j = .sleeping := by
    intro j hj
    rw [Function.update_apply] at hj
    split_ifs at hj
    exact hj
  exact { h with
    asleep := fun j hj => h.asleep j (hst hj)
    owed := fun j l hc => h.owed j l (hc.imp id fun ⟨hs, hw⟩ => ⟨hst hs, hw⟩) }

end Invariant

section Apply

variable [DecidableEq L] {ps : Pids n} {σ τ : State n L} {owner owner' : L → Option (Fin n)} {p : Fin n} {m : Move n L}

/-- What a move has to keep of the sleep-locks and their holders. -/
structure Fine (ps : Pids n) (σ : State n L) (owner owner' : L → Option (Fin n)) (p : Fin n) (m : Move n L) : Prop where
  spin : m.spin.Shift (lockAt Phase.spins (σ.pc p)) (lockAt Phase.spins m.pc)
  own : ∀ l, (m.holds (σ.held p) l = true ∨ lockAt Phase.owns m.pc = some l) ↔ owner' l = some p
  others : ∀ l q, q ≠ p → (owner l = some q ↔ owner' l = some q)
  once : ∀ l, m.holds (σ.held p) l = true → lockAt Phase.owns m.pc ≠ some l
  locked : ∀ l, m.locked σ.locked l = (owner' l).isSome
  lkpid : ∀ l q, owner' l = some q → m.lkpid σ.lkpid l = ps.pid q
  /-- a lock's fields change under its inner spinlock -/
  inside : ∀ l, m.locked σ.locked l ≠ σ.locked l → lockAt Phase.spins (σ.pc p) = some l
  sees : Sees (m.locked σ.locked) (m.holds (σ.held p)) m.pc
  /-- who makes a lock free will look at every process -/
  frees : ∀ l, σ.locked l = true → m.locked σ.locked l = true ∨ ∀ j, Owes l j m.pc

/-- What it has to keep of the processes that sleep. -/
structure Wakes (σ : State n L) (p : Fin n) (m : Move n L) : Prop where
  plock : m.plock.Shift (plockAt p (σ.pc p)) (plockAt p m.pc)
  chan : ∀ l, lockAt Phase.waits m.pc = some l → m.chan σ.chan p = some l
  asleep : m.pstate σ.pstate p = .sleeping → ∃ l, lockAt Phase.waits m.pc = some l
  elsewhere : ∀ q, q ≠ p → m.chan σ.chan q = σ.chan q ∧ (m.pstate σ.pstate q = .sleeping → σ.pstate q = .sleeping)
  commits : ∀ l, Committed m.pc (m.pstate σ.pstate p) l → Committed (σ.pc p) (σ.pstate p) l ∨ m.locked σ.locked l = true
  owes : ∀ j l, j ≠ p → Owes l j (σ.pc p) → Committed (σ.pc j) (m.pstate σ.pstate j) l → Owes l j m.pc

structure Applied (σ τ : State n L) (p : Fin n) (m : Move n L) : Prop where
  pc : τ.pc = Function.update σ.pc p m.pc
  spin : m.spin.run p σ.spin = .ok τ.spin
  plock : m.plock.run p σ.plock = .ok τ.plock
  pstate : τ.pstate = m.pstate σ.pstate
  chan : τ.chan = m.chan σ.chan
  locked : τ.locked = m.locked σ.locked
  lkpid : τ.lkpid = m.lkpid σ.lkpid
  held : τ.held = Function.update σ.held p (m.holds (σ.held p))

theorem applied_of_ok (hτ : σ.apply p m = .ok τ) : Applied σ τ p m := by
  unfold State.apply at hτ
  split at hτ
  case h_1 spin plock hspin hplock =>
    obtain rfl := Outcome.ok.inj hτ
    exact ⟨rfl, hspin, hplock, rfl, rfl, rfl, rfl, rfl⟩
  all_goals cases hτ

theorem Inv.apply (h : Inv ps σ owner) (hm : Fine ps σ owner owner' p m) (hw : Wakes σ p m)
    (hτ : σ.apply p m = .ok τ) : Inv ps τ owner' := by
  have ha := applied_of_ok hτ
  have hself : τ.pc p = m.pc := by rw [ha.pc, Function.update_self]
  have hother : ∀ {q}, q ≠ p → τ.pc q = σ.pc q := fun hq => by rw [ha.pc, Function.update_of_ne hq]
  have hheld : τ.held p = m.holds (σ.held p) := by rw [ha.held, Function.update_self]
  have hheld' : ∀ {q}, q ≠ p → τ.held q = σ.held q := fun hq => by rw [ha.held, Function.update_of_ne hq]
  refine ⟨fun q l => ?_, fun q r => ?_, fun q l => ?_, fun q l hq => ?_, fun l => ?_, fun l q hq => ?_, fun q => ?_,
    fun q l hq => ?_, fun q hq => ?_, fun j l hj => ?_⟩
  · rw [hm.spin.run h.spin ha.spin, ha.pc, Function.apply_update fun _ => lockAt Phase.spins]
  · rw [hw.plock.run h.plock ha.plock, ha.pc, Function.apply_update plockAt]
  · by_cases hqp : q = p
    · rw [hqp, hself, hheld]
      exact hm.own l
    · rw [hother hqp, hheld' hqp]
      exact (h.own q l).trans (hm.others l q hqp)
  · by_cases hqp : q = p
    · rw [hqp, hheld] at hq
      rw [hqp, hself]
      exact hm.once l hq
    · rw [hheld' hqp] at hq
      rw [hother hqp]
      exact h.once q l hq
  · rw [ha.locked]
    exact hm.locked l
  · rw [ha.lkpid]
    exact hm.lkpid l q hq
  · rw [ha.locked]
    by_cases hqp : q = p
    · rw [hqp, hself, hheld]
      exact hm.sees
    · rw [hother hqp, hheld' hqp]
      refine (h.sees q).of_others fun l hl => ?_
      by_contra hne
      have hp := (h.spin p l).mpr (hm.inside l hne)
      rw [(h.spin q l).mpr hl] at hp
      exact hqp (Option.some.inj hp)
  · rw [ha.chan]
    by_cases hqp : q = p
    · rw [hqp, hself] at hq
      rw [hqp]
      exact hw.chan l hq
    · rw [hother hqp] at hq
      exact (hw.elsewhere q hqp).1.trans (h.chan q l hq)
  · rw [ha.pstate] at hq
    by_cases hqp : q = p
    · rw [hqp] at hq
      rw [hqp, hself]
      exact hw.asleep hq
    · rw [hother hqp]
      exact h.asleep q ((hw.elsewhere q hqp).2 hq)
  · -- whoever owed a look to `j` still does, or is past `j` and has woken it
    rw [ha.pstate] at hj
    rw [ha.locked]
    have hfree : σ.locked l = true → m.locked σ.locked l = true ∨ ∃ q, Owes l j (τ.pc q) :=
      fun hl => (hm.frees l hl).imp id fun ho => ⟨p, by rw [hself]; exact ho j⟩
    by_cases hjp : j = p
    · subst hjp
      rw [hself] at hj
      rcases hw.commits l hj with hc | hc
      · rcases h.owed j l hc with hl | ⟨q, hq⟩
        · exact hfree hl
        · have hqj : q ≠ j := by
            rintro rfl
            exact hc.not_owes hq
          exact .inr ⟨q, by rwa [hother hqj]⟩
      · exact .inl hc
    · rw [hother hjp] at hj
      have hc : Committed (σ.pc j) (σ.pstate j) l := hj.imp id fun ⟨hst, hwait⟩ => ⟨(hw.elsewhere j hjp).2 hst, hwait⟩
      rcases h.owed j l hc with hl | ⟨q, hq⟩
      · exact hfree hl
      · by_cases hqp : q = p
        · subst hqp
          exact .inr ⟨q, by rw [hself]; exact hw.owes j l hjp hq hj⟩
        · exact .inr ⟨q, by rwa [hother hqp]⟩

/-- A move that leaves the fields of the locks and the holders alone. -/
theorem Inv.fine (h : Inv ps σ owner) (hlock : m.lock = none) (hheld : m.held = none)
    (hspin : m.spin.Shift (lockAt Phase.spins (σ.pc p)) (lockAt Phase.spins m.pc))
    (hown : lockAt Phase.owns m.pc = lockAt Phase.owns (σ.pc p)) (hsees : Sees σ.locked (σ.held p) m.pc) :
    Fine ps σ owner owner p m := by
  have hl : m.locked σ.locked = σ.locked := by simp only [Move.locked, hlock]
  have hp : m.lkpid σ.lkpid = σ.lkpid := by simp only [Move.lkpid, hlock]
  have hh : m.holds (σ.held p) = σ.held p := by simp only [Move.holds, hheld]
  refine ⟨hspin, ?_, fun _ _ _ => Iff.rfl, ?_, ?_, ?_, fun l hne => ?_, ?_, fun l => ?_⟩
  · rw [hh, hown]
    exact h.own p
  · rw [hh, hown]
    exact h.once p
  · rw [hl]
    exact h.locked
  · rw [hp]
    exact h.lkpid
  · rw [hl] at hne
    exact absurd rfl hne
  · rw [hl, hh]
    exact hsees
  · rw [hl]
    exact .inl

/-- A move that leaves the process table alone. -/
theorem Inv.wakes (h : Inv ps σ owner) (hproc : m.proc = none)
    (hplock : m.plock.Shift (plockAt p (σ.pc p)) (plockAt p m.pc))
    (hwaits : lockAt Phase.waits m.pc = lockAt Phase.waits (σ.pc p))
    (hslp3 : ∀ l, m.pc = some (.slp3, l) → m.locked σ.locked l = true)
    (howes : ∀ j l, j ≠ p → Owes l j (σ.pc p) → Committed (σ.pc j) (σ.pstate j) l → Owes l j m.pc) :
    Wakes σ p m := by
  have hst : m.pstate σ.pstate = σ.pstate := by simp only [Move.pstate, hproc]
  have hch : m.chan σ.chan = σ.chan := by simp only [Move.chan, hproc]
  refine ⟨hplock, ?_, ?_, fun q _ => ?_, fun l hc => ?_, ?_⟩
  · rw [hch, hwaits]
    exact h.chan p
  · rw [hst, hwaits]
    exact h.asleep p
  · rw [hch, hst]
    exact ⟨rfl, id⟩
  · rw [hst, Committed, hwaits] at hc
    rcases hc with hc | hc
    · exact .inr (hslp3 l hc)
    · exact .inl (.inr hc)
  · rw [hst]
    exact howes

/-- p->state and p->chan of the process itself, in sleep -/
theorem wakes_own {x : Option (Phase n × L)} (hx : σ.pc p = x) {st : PState} {ch : Option L} (hproc : m.proc = some (p, st, ch))
    (hplock : m.plock.Shift (plockAt p x) (plockAt p m.pc))
    (hch : ∀ l, lockAt Phase.waits m.pc = some l → ch = some l)
    (hst : st = .sleeping → ∃ l, lockAt Phase.waits m.pc = some l) (hslp3 : ∀ l, m.pc ≠ some (.slp3, l))
    (hcommit : ∀ l, lockAt Phase.waits m.pc = some l → Committed (σ.pc p) (σ.pstate p) l)
    (hno : ∀ j l, ¬ Owes l j x) : Wakes σ p m := by
  subst hx
  have hpst : m.pstate σ.pstate = Function.update σ.pstate p st := by simp only [Move.pstate, hproc]
  have hpch : m.chan σ.chan = Function.update σ.chan p ch := by simp only [Move.chan, hproc]
  refine ⟨hplock, fun l hl => ?_, fun hs => ?_, fun q hq => ?_, fun l hc => ?_, fun j l _ ho => absurd ho (hno j l)⟩
  · rw [hpch, Function.update_self]
    exact hch l hl
  · rw [hpst, Function.update_self] at hs
    exact hst hs
  · rw [hpch, hpst, Function.update_of_ne hq, Function.update_of_ne hq]
    exact ⟨rfl, id⟩
  · rcases hc with hc | ⟨-, hw⟩
    · exact absurd hc (hslp3 l)
    · exact .inl (hcommit l hw)

/-- A move that changes nothing but where the process is and the spinlocks it holds. -/
theorem Inv.quiet (h : Inv ps σ owner) {x : Option (Phase n × L)} (hx : σ.pc p = x) (hlock : m.lock = none)
    (hheld : m.held = none) (hproc : m.proc = none)
    (hspin : m.spin.Shift (lockAt Phase.spins x) (lockAt Phase.spins m.pc))
    (hplock : m.plock.Shift (plockAt p x) (plockAt p m.pc)) (hown : lockAt Phase.owns m.pc = lockAt Phase.owns x)
    (hwaits : lockAt Phase.waits m.pc = lockAt Phase.waits x) (hsees : Sees σ.locked (σ.held p) m.pc)
    (hslp3 : ∀ l, m.pc = some (.slp3, l) → σ.locked l = true)
    (howes : ∀ j l, j ≠ p → Owes l j x → Committed (σ.pc j) (σ.pstate j) l → Owes l j m.pc) :
    ∃ owner', Fine ps σ owner owner' p m ∧ Wakes σ p m := by
  subst hx
  have hl : m.locked σ.locked = σ.locked := by simp only [Move.locked, hlock]
  exact ⟨owner, h.fine hlock hheld hspin hown hsees, h.wakes hproc hplock hwaits (by rwa [hl]) howes⟩

section Next

variable {l : L} {ph : Phase n}

/-- `lk->locked = 1` -/
theorem Inv.lock (h : Inv ps σ owner) (hx : σ.pc p = some (.acq1, l)) (hfree : σ.locked l = false) :
    Fine ps σ owner (Function.update owner l (some p)) p
      { pc := some (.acq2, l), lock := some (l, true, ps.pid p) } := by
  have hnone : owner l = none := by
    rw [h.locked] at hfree
    simpa using hfree
  have hown := h.own p
  rw [hx] at hown
  refine ⟨by rw [hx]; rfl, fun l' => ?_, fun l' q hq => ?_, fun l' hh he => ?_, fun l' => ?_, fun l' q hq => ?_,
    fun l' hne => ?_, trivial, fun l' hl => .inl ?_⟩
  all_goals simp only [Move.holds, Move.locked, Move.lkpid, Function.update_apply] at *
  · by_cases hl : l' = l
    · simp [hl, lockAt, Phase.owns]
    · simpa [hl, Ne.symm hl, lockAt, Phase.owns] using hown l'
  · by_cases hl : l' = l
    · simp [hl, hnone, Ne.symm hq]
    · simp [hl]
  · obtain rfl : l = l' := Option.some.inj he
    rw [(hown l).mp (.inl hh)] at hnone
    cases hnone
  · split_ifs
    · rfl
    · exact h.locked l'
  · split_ifs at hq ⊢
    · rw [Option.some.inj hq]
    · exact h.lkpid l' q hq
  · split_ifs at hne with hl
    · rw [hx, hl]
      rfl
    · exact absurd rfl hne
  · split_ifs
    · rfl
    · exact hl

/-- `lk->locked = 0`, with wakeup still to come -/
theorem Inv.unlock (h : Inv ps σ owner) (hx : σ.pc p = some (.rel1, l)) :
    Fine ps σ owner (Function.update owner l none) p { pc := some (.wake1 0, l), lock := some (l, false, 0) } := by
  have hown := h.own p
  have honce := h.once p
  rw [hx] at hown honce
  have hself : owner l = some p := (hown l).mp (.inr rfl)
  refine ⟨by rw [hx]; rfl, fun l' => ?_, fun l' q hq => ?_, fun l' _ => nofun, fun l' => ?_, fun l' q hq => ?_,
    fun l' hne => ?_, trivial, fun l' hl => ?_⟩
  all_goals simp only [Move.holds, Move.locked, Move.lkpid, Function.update_apply] at *
  · by_cases hl : l' = l
    · have : σ.held p l ≠ true := fun hh => honce l hh rfl
      simp [hl, this, lockAt, Phase.owns]
    · simpa [hl, Ne.symm hl, lockAt, Phase.owns] using hown l'
  · by_cases hl : l' = l
    · simp [hl, hself, Ne.symm hq]
    · simp [hl]
  · split_ifs
    · rfl
    · exact h.locked l'
  · split_ifs at hq ⊢
    exact h.lkpid l' q hq
  · split_ifs at hne with hl
    · rw [hx, hl]
      rfl
    · exact absurd rfl hne
  · by_cases hl' : l' = l
    · exact .inr fun j => ⟨hl'.symm, Nat.zero_le _⟩
    · rw [if_neg hl']
      exact .inl hl

/-- acquiresleep returns, or releasesleep is called: the lock stays with the process. -/
theorem Inv.hand (h : Inv ps σ owner) {b : Bool} (hlock : m.lock = none) (hheld : m.held = some (l, b))
    (hspin : m.spin.Shift (lockAt Phase.spins (σ.pc p)) (lockAt Phase.spins m.pc)) (hself : owner l = some p)
    (hb : b = true ↔ lockAt Phase.owns m.pc ≠ some l)
    (hown : ∀ l', l' ≠ l → lockAt Phase.owns m.pc ≠ some l' ∧ lockAt Phase.owns (σ.pc p) ≠ some l')
    (hsees : ∀ f g, Sees f g m.pc) : Fine ps σ owner owner p m := by
  have hl : m.locked σ.locked = σ.locked := by simp only [Move.locked, hlock]
  have hp : m.lkpid σ.lkpid = σ.lkpid := by simp only [Move.lkpid, hlock]
  have hh : m.holds (σ.held p) = Function.update (σ.held p) l b := by simp only [Move.holds, hheld]
  refine ⟨hspin, fun l' => ?_, fun _ _ _ => Iff.rfl, fun l' hl' => ?_, ?_, ?_, fun l hne => ?_, hsees _ _, fun l => ?_⟩
  · rw [hh, Function.update_apply]
    split_ifs with he
    · subst he
      simp only [hself, iff_true]
      by_cases hbt : b = true
      · exact .inl hbt
      · exact .inr (not_not.mp (mt hb.mpr hbt))
    · obtain ⟨h1, h2⟩ := hown l' he
      rw [← h.own p l']
      simp [h1, h2]
  · rw [hh, Function.update_apply] at hl'
    split_ifs at hl' with he
    · rw [he]
      exact hb.mp hl'
    · exact (hown l' he).1
  · rw [hl]
    exact h.locked
  · rw [hp]
    exact h.lkpid
  · rw [hl] at hne
    exact absurd rfl hne
  · rw [hl]
    exact .inl

/-- One process of wakeup's loop. -/
theorem Inv.wake2 (h : Inv ps σ owner) {q : Fin n} (hx : σ.pc p = some (.wake2 q, l))
    (hn : next ps σ p l (.wake2 q) = .ok m) : ∃ owner', Fine ps σ owner owner' p m ∧ Wakes σ p m := by
  have hwait : lockAt Phase.waits (σ.pc p) = none := by rw [hx]; rfl
  simp only [SleepLock.next] at hn
  split_ifs at hn with hs
  · obtain rfl := Outcome.ok.inj hn
    refine ⟨owner, h.fine rfl rfl (by rw [hx]; rfl) (by rw [hx]; rfl) trivial, by rw [hx]; exact ⟨rfl, rfl⟩, nofun,
      fun hp => ?_, fun j _ => ?_, fun l' hc => ?_, fun j l' hj ho hc => ?_⟩
    all_goals simp only [Move.pstate, Move.chan, Function.update_apply] at *
    · split_ifs at hp
      obtain ⟨l', hl'⟩ := h.asleep p hp
      rw [hwait] at hl'
      cases hl'
    · split_ifs with hjq
      · rw [hjq]
        exact ⟨rfl, nofun⟩
      · exact ⟨rfl, id⟩
    · rcases hc with hc | ⟨-, hc⟩ <;> cases hc
    · rw [hx] at ho
      refine ⟨ho.1, Nat.lt_of_le_of_ne ho.2 fun he => ?_⟩
      obtain rfl : q = j := Fin.ext he
      rw [if_pos rfl] at hc
      rcases hc with hc | ⟨hc, -⟩
      · exact h.not_slp3 hx hj l' hc
      · cases hc
  · obtain rfl := Outcome.ok.inj hn
    refine h.quiet hx rfl rfl rfl rfl ⟨rfl, rfl⟩ rfl rfl trivial nofun fun j l' hj ho hc => ?_
    refine ⟨ho.1, Nat.lt_of_le_of_ne ho.2 fun he => ?_⟩
    obtain rfl : q = j := Fin.ext he
    rcases hc with hc | ⟨hst, hw⟩
    · exact h.not_slp3 hx hj l' hc
    · exact hs ⟨hst, by rw [h.chan q l' hw, ho.1]⟩

theorem Inv.next (h : Inv ps σ owner) (hx : σ.pc p = some (ph, l)) (hn : next ps σ p l ph = .ok m) :
    ∃ owner', Fine ps σ owner owner' p m ∧ Wakes σ p m := by
  cases ph with
  | acq0 | slp6 | rel0 | hold0 =>
    obtain rfl := Outcome.ok.inj hn
    exact h.quiet hx rfl rfl rfl ⟨rfl, rfl⟩ rfl rfl rfl trivial nofun nofun
  | acq1 =>
    simp only [SleepLock.next] at hn
    split_ifs at hn with hl
    · obtain rfl := Outcome.ok.inj hn
      exact h.quiet hx rfl rfl rfl rfl rfl rfl rfl hl nofun nofun
    · obtain rfl := Outcome.ok.inj hn
      exact ⟨_, h.lock hx (Bool.eq_false_of_not_eq_true hl),
        h.wakes rfl (by rw [hx]; rfl) (by rw [hx]; rfl) nofun (by rw [hx]; nofun)⟩
  | acq2 =>
    obtain rfl := Outcome.ok.inj hn
    have hself : owner l = some p := (h.own p l).mp (.inr (by rw [hx]; rfl))
    refine ⟨owner, h.hand rfl rfl (by rw [hx]; exact ⟨rfl, rfl⟩) hself (by simp [lockAt]) (fun l' hne => ⟨nofun, ?_⟩)
      fun _ _ => trivial, h.wakes rfl (by rw [hx]; rfl) (by rw [hx]; rfl) nofun (by rw [hx]; nofun)⟩
    rw [hx]
    exact fun he => hne (Option.some.inj he).symm
  | slp1 =>
    obtain rfl := Outcome.ok.inj hn
    have hs := h.sees p
    rw [hx] at hs
    exact h.quiet hx rfl rfl rfl rfl ⟨rfl, rfl⟩ rfl rfl hs nofun nofun
  | slp2 =>
    obtain rfl := Outcome.ok.inj hn
    have hs := h.sees p
    rw [hx] at hs
    refine h.quiet hx rfl rfl rfl ⟨rfl, rfl⟩ rfl rfl rfl trivial (fun l' he => ?_) nofun
    rw [← (Prod.mk.inj (Option.some.inj he)).2]
    exact hs
  | slp3 =>
    obtain rfl := Outcome.ok.inj hn
    refine ⟨owner, h.fine rfl rfl (by rw [hx]; rfl) (by rw [hx]; rfl) trivial, wakes_own hx rfl rfl (fun l' hl => hl)
      (fun _ => ⟨l, rfl⟩) nofun (fun l' hl => .inl ?_) nofun⟩
    rw [hx, Option.some.inj hl]
  | slp4 =>
    obtain rfl := Outcome.ok.inj hn
    exact h.quiet hx rfl rfl rfl rfl ⟨rfl, rfl⟩ rfl rfl trivial nofun nofun
  | asleep =>
    simp only [SleepLock.next] at hn
    split_ifs at hn
    obtain rfl := Outcome.ok.inj hn
    exact ⟨owner, h.fine rfl rfl (by rw [hx]; rfl) (by rw [hx]; rfl) trivial,
      wakes_own hx rfl ⟨rfl, rfl⟩ nofun nofun nofun nofun nofun⟩
  | slp5 =>
    obtain rfl := Outcome.ok.inj hn
    refine ⟨owner, h.fine rfl rfl (by rw [hx]; rfl) (by rw [hx]; rfl) trivial,
      wakes_own hx rfl ⟨rfl, rfl⟩ nofun (fun hs => ?_) nofun nofun nofun⟩
    obtain ⟨l', hl'⟩ := h.asleep p hs
    rw [hx] at hl'
    cases hl'
  | rel1 =>
    obtain rfl := Outcome.ok.inj hn
    exact ⟨_, h.unlock hx, h.wakes rfl (by rw [hx]; rfl) (by rw [hx]; rfl) nofun (by rw [hx]; nofun)⟩
  | wake1 i =>
    simp only [SleepLock.next] at hn
    split_ifs at hn with hi hip
    · obtain rfl := Outcome.ok.inj hn
      refine h.quiet hx rfl rfl rfl rfl rfl rfl rfl trivial nofun fun j l' hj ho _ => ⟨ho.1, ?_⟩
      have hne : i ≠ j := fun he => hj (by rw [← hip]; exact Fin.ext he.symm)
      have := ho.2
      omega
    · obtain rfl := Outcome.ok.inj hn
      exact h.quiet hx rfl rfl rfl rfl ⟨rfl, rfl⟩ rfl rfl trivial nofun fun j l' _ ho _ => ho
    · obtain rfl := Outcome.ok.inj hn
      refine h.quiet hx rfl rfl rfl rfl rfl rfl rfl trivial nofun fun j l' _ ho _ => ?_
      have := ho.2
      omega
  | wake2 q => exact h.wake2 hx hn
  | rel2 | hold2 r =>
    obtain rfl := Outcome.ok.inj hn
    exact h.quiet hx rfl rfl rfl ⟨rfl, rfl⟩ rfl rfl rfl trivial nofun nofun
  | hold1 =>
    obtain rfl := Outcome.ok.inj hn
    exact h.quiet hx rfl rfl rfl rfl rfl rfl rfl (h.holding hx) nofun nofun

theorem Inv.enter (h : Inv ps σ owner) (hx : σ.pc p = none) {k : Call L} (hn : k.enter σ p = .ok m) :
    ∃ owner', Fine ps σ owner owner' p m ∧ Wakes σ p m := by
  cases k with
  | acquiresleep l | holdingsleep l =>
    obtain rfl := Outcome.ok.inj hn
    exact h.quiet hx rfl rfl rfl rfl rfl rfl rfl trivial nofun nofun
  | releasesleep l =>
    simp only [Call.enter] at hn
    split_ifs at hn with hh
    obtain rfl := Outcome.ok.inj hn
    have hself : owner l = some p := (h.own p l).mp (.inl hh)
    refine ⟨owner, h.hand rfl rfl (by rw [hx]; rfl) hself (by simp [lockAt, Phase.owns]) (fun l' hne => ⟨?_, ?_⟩)
      fun _ _ => trivial, h.wakes rfl (by rw [hx]; rfl) (by rw [hx]; rfl) nofun (by rw [hx]; nofun)⟩
    · exact fun he => hne (Option.some.inj he).symm
    · rw [hx]
      nofun

end Next

theorem Inv.step (h : Inv ps σ owner) {a : Act n L} (hs : step ps a σ = .ok τ) : ∃ owner', Inv ps τ owner' := by
  cases a with
  | call p k =>
    simp only [SleepLock.step] at hs
    split at hs
    · next m hx hm =>
      obtain ⟨owner', hfine, hwakes⟩ := h.enter hx hm
      exact ⟨owner', h.apply hfine hwakes hs⟩
    · cases hs
  | step p =>
    simp only [SleepLock.step] at hs
    split at hs
    · cases hs
    · next ph l hx =>
      split at hs
      · next m hm =>
        obtain ⟨owner', hfine, hwakes⟩ := h.next hx hm
        exact ⟨owner', h.apply hfine hwakes hs⟩
      · cases hs
      · cases hs
  | kill q =>
    simp only [SleepLock.step] at hs
    split_ifs at hs
    obtain rfl := Outcome.ok.inj hs
    exact ⟨owner, h.kill q⟩

/-- In every run: a lock has at most one holder, holdingsleep is about to return true exactly to it, and no
process is SLEEPING on a lock that is free with its inner spinlock free. -/
theorem sleeplock_excludes {acts : List (Act n L)} (hrun : Run (step ps) Free boot acts σ) :
    (∀ l p q, σ.held p l = true → σ.held q l = true → p = q) ∧
      (∀ p l r, σ.pc p = some (.hold2 r, l) → (r = true ↔ σ.held p l = true)) ∧
      ∀ p l, σ.pstate p = .sleeping → σ.chan p = some l → ¬ (σ.locked l = false ∧ σ.spin l = none) := by
  obtain ⟨owner, h⟩ := hrun.inv (I := fun σ => ∃ owner, Inv ps σ owner) ⟨_, inv_boot⟩
    fun _ _ _ ⟨_, hI⟩ _ hs => hI.step hs
  refine ⟨fun l p q hp hq => ?_, fun p l r hx => ?_, fun p l hs hch ⟨hl, hsp⟩ => ?_⟩
  · have := (h.own p l).mp (.inl hp)
    rw [(h.own q l).mp (.inl hq)] at this
    exact (Option.some.inj this).symm
  · have := h.sees p
    rw [hx] at this
    rw [show r = σ.held p l from this]
  · obtain ⟨l', hw⟩ := h.asleep p hs
    obtain rfl : l' = l := Option.some.inj ((h.chan p l' hw).symm.trans hch)
    rcases h.owed p l' (.inr ⟨hs, hw⟩) with hlk | ⟨q, hq⟩
    · rw [hl] at hlk
      cases hlk
    · -- whoever owes `p` a look holds the inner spinlock
      rw [(h.spin q l').mpr hq.spins] at hsp
      cases hsp

end Apply

section Contention

local instance neZero_lock : NeZero 1 := ⟨by decide⟩
local instance neZero_procs : NeZero 2 := ⟨by decide⟩

/-- Process 0 holds the lock and is about to return from holdingsleep, process 1 has gone to sleep on the lock. -/
def contention : List (Act 2 (Fin 1)) :=
  [.call 0 (.acquiresleep 0), .step 0, .step 0, .step 0,
    .call 1 (.acquiresleep 0), .step 1, .step 1, .step 1, .step 1, .step 1, .step 1,
    .call 0 (.holdingsleep 0), .step 0, .step 0]

end Contention

def firstPids (n : ℕ) : Pids n := ⟨fun p => p + 1, fun _ _ h => Fin.ext (by simpa using h)⟩

theorem contention_ok : (execIf (step (firstPids 2)) (fun _ _ => true) contention boot).Sat fun σ =>
    σ.pc 0 = some (.hold2 true, 0) ∧ σ.pstate 1 = .sleeping ∧ σ.chan 1 = some 0 := by
  decide +kernel

theorem sleeplock_excludes_contention : ∃ σ, Run (step (firstPids 2)) Free boot contention σ ∧
    σ.pstate 1 = .sleeping ∧ σ.held 0 0 = true ∧ σ.held 1 0 = false := by
  obtain ⟨σ, hσ, hpc, hst, -⟩ := contention_ok.ok
  have hrun : Run (step (firstPids 2)) Free boot contention σ := (run_of_execIf hσ).free
  obtain ⟨hone, hholding, -⟩ := sleeplock_excludes hrun
  have hheld := (hholding 0 0 true hpc).mp rfl
  exact ⟨σ, hrun, hst, hheld, Bool.eq_false_of_not_eq_true fun h => absurd (hone 0 0 1 hheld h) (by decide)⟩

end Xv6.SleepLock
