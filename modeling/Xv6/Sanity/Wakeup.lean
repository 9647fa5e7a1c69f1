import Xv6.Sanity.Locks

/-! Why no wakeup is lost. A lock `l`, a channel `x` and a condition on the data that `l`
protects; the code of the processes says at each of its points how it stands to them,
and as long as it keeps to the rules below, a process that sleeps on `x` while the
condition holds is one that the holder of `l` has yet to wake. -/

namespace Xv6.Proc

open Machine

variable {D Λ X C : Type}

/-- Where the code stands: it does not hold the lock; it does; it does, and knows that the
condition is false; it may have made the condition true without a `wakeup` since; it has
called `wakeup` since it took the lock. -/
inductive Sec where
  | out
  | clean
  | idle
  | dirty
  | paid
  deriving DecidableEq

/-- The rules. A step that leaves the debt unpaid is allowed by them; see `Honest`. -/
structure Discipline [DecidableEq Λ] [DecidableEq X] (code : C → Instr D Λ X C) (l : Λ) (x : X) (cond : D → Prop)
    (sec : C → Sec) : Prop where
  act : ∀ {k f n d d' k'}, code k = .act f → f n d = some (d', k') → (sec k = .idle → ¬ cond d) →
    (sec k' = .out ↔ sec k = .out) ∧ (sec k' = .out ∨ sec k' = .clean → cond d' → cond d) ∧
    (sec k' = .idle → ¬ cond d') ∧ (sec k' = .paid → sec k = .paid)
  acquire : ∀ {k l' k'}, code k = .acquire l' k' → if l' = l then sec k = .out ∧ sec k' = .clean else sec k' = sec k
  release : ∀ {k l' k'}, code k = .release l' k' →
    if l' = l then sec k ≠ .out ∧ sec k ≠ .dirty ∧ sec k' = .out else sec k' = sec k
  sleep : ∀ {k y l' k'}, code k = .sleep y l' k' →
    (if l' = l then sec k ≠ .out ∧ sec k ≠ .dirty ∧ sec k' = .clean else sec k' = sec k) ∧
    (y = x → l' = l ∧ sec k = .idle)
  wakeup : ∀ {k y k'}, code k = .wakeup y k' →
    if y = x then (sec k = .out ∧ sec k' = .out) ∨ (sec k ≠ .out ∧ sec k' = .paid) else sec k' = sec k
  killed : ∀ {k yes no}, code k = .killed yes no → sec no = sec k
  setkilled : ∀ {k k'}, code k = .setkilled k' → sec k' = sec k
  kkill : ∀ {k pid k'}, code k = .kkill pid k' → sec k = .out ∧ ∀ r, sec (k' r) = .out
  kfork : ∀ {k k' child}, code k = .kfork k' child → sec k = .out ∧ sec child = .out ∧ ∀ r, sec (k' r) = .out
  kexit : ∀ {k status}, code k = .kexit status → sec k = .out
  kwait : ∀ {k k'}, code k = .kwait k' → sec k = .out ∧ ∀ r, sec (k' r) = .out

/-- No step of the code leaves it with the condition true and the debt forgotten, nor does a
process that finds itself killed. -/
structure Honest (code : C → Instr D Λ X C) (cond : D → Prop) (sec : C → Sec) : Prop where
  act : ∀ {k f n d d' k'}, code k = .act f → f n d = some (d', k') → sec k = .dirty → sec k' = .clean → ¬ cond d'
  killed : ∀ {k yes no}, code k = .killed yes no → sec yes = sec no

section Stand

variable [DecidableEq Λ] [DecidableEq X] (code : C → Instr D Λ X C) (l : Λ) (x : X) (stand : C → Sec)

/-- In a `sleep`, before and after the lock is released. -/
def Sleeper.sec (asleep : Bool) : Sleeper Λ X C → Sec
  | .user y l' k => if l' = l then (if asleep then .out else if y = x then .idle else .clean) else stand k
  | .wait _ => .out

/-- In a `wakeup` of the channel the debt stands until the loop is over. -/
def Waker.sec : Waker X C → Sec
  | .user y k => if y = x ∧ stand k = .paid then .dirty else stand k
  | _ => .out

def Pc.sec : Pc Λ X C → Sec
  | .run k | .forkret k | .setkilled1 k | .setkilled2 k => stand k
  | .sleep1 s | .sleep2 s => s.sec l x stand false
  | .sleep3 s | .sleep4 s | .sleep5 s => s.sec l x stand true
  | .wakeup1 w _ | .wakeup2 w _ => w.sec x stand
  | .killed1 (.user _ no) | .killed2 (.user _ no) => stand no
  | .yield1 k | .yield2 k | .yield3 k => k.sec
  | _ => .out

/-- How far a `wakeup` of the channel by the holder of the lock has come. -/
def Waker.reach (w : Waker X C) (i : ℕ) : ℕ :=
  match w with
  | .user y k => if stand k = .paid then (if y = x then i else NPROC) else 0
  | _ => 0

def Pc.reach : Pc Λ X C → ℕ
  | .wakeup1 w i => w.reach x stand i
  | .wakeup2 w i => w.reach x stand i
  | pc => if pc.sec l x stand = .paid then NPROC else 0

def Sleeper.Good : Sleeper Λ X C → Prop
  | .user y l' k => (l' = l → stand k = .clean) ∧ (y = x → l' = l)
  | .wait k => ∀ r, stand (k r) = .out

def Waker.Good : Waker X C → Prop
  | .user y k => y = x → stand k = .out ∨ stand k = .paid
  | _ => True

/-- The code that a process in the kernel goes back to stands as it should. -/
def Pc.Good : Pc Λ X C → Prop
  | .sleep1 s | .sleep2 s | .sleep3 s | .sleep4 s | .sleep5 s => s.Good l x stand
  | .wakeup1 w _ | .wakeup2 w _ => w.Good x stand
  | .yield1 k | .yield2 k | .yield3 k => k.Good ∧ k.sec l x stand = .out
  | .forkret k => stand k = .out
  | .killed1 (.user yes no) | .killed2 (.user yes no) => ∃ k, code k = .killed yes no
  | .fork1 k child _ | .fork2 k child _ => stand child = .out ∧ ∀ r, stand (k r) = .out
  | .killed1 (.wait k) | .killed2 (.wait k) | .kill1 _ k _ | .kill2 _ k _ | .fork3 k _ | .fork4 k _ _ | .fork5 k _ _
  | .fork6 k _ _ | .fork7 k _ _ | .wait1 k | .wait2 k _ _ | .wait3 k _ | .wait4 k _ => ∀ r, stand (k r) = .out
  | _ => True

/-- Process `q` is asleep on the channel, or past the point where it could notice a change. -/
def State.Committed (σ : State D Λ X C) (q : Slot) : Prop :=
  (∃ k, σ.pc q = .sleep3 (.user x l k)) ∨
    ((σ.proc q).state = .sleeping ∧ ∃ k, σ.pc q = .sleep4 (.user x l k))

/-- Process at `pc` has yet to wake process `q`. -/
def Pc.Owes (pc : Pc Λ X C) (q : Slot) : Prop := pc.sec l x stand = .dirty ∧ pc.reach l x stand ≤ q

variable (cond : D → Prop)

structure Wake (σ : State D Λ X C) : Prop where
  good : ∀ q, (σ.pc q).Good code l x stand
  hold : ∀ c q, (σ.cpu c).run = some q → ((σ.pc q).sec l x stand ≠ .out ↔ σ.lock (.user l) = some c)
  held : ∀ c, σ.lock (.user l) = some c → ∃ q, (σ.cpu c).run = some q
  off : ∀ q, σ.Off q → (σ.pc q).sec l x stand = .out
  idle : ∀ c q, (σ.cpu c).run = some q → (σ.pc q).sec l x stand = .idle → ¬ cond σ.data
  owe : ∀ q, σ.Committed l x q → cond σ.data → ∃ c r, (σ.cpu c).run = some r ∧ (σ.pc r).Owes l x stand q
  woken : ∀ c r, (σ.cpu c).run = some r → ∀ q : Slot, q.val < (σ.pc r).reach l x stand → ¬ σ.Committed l x q

/-- Where the lock stands after a move, if it stood at `s` before and at `s'` after it. -/
def LockOp.Moves (op : LockOp (Lock Λ)) (s s' : Sec) : Prop :=
  match op with
  | .take (.user l') => if l' = l then s = .out ∧ s' ≠ .out else (s' = .out ↔ s = .out)
  | .drop (.user l') => if l' = l then s ≠ .out ∧ s' = .out else (s' = .out ↔ s = .out)
  | _ => s' = .out ↔ s = .out

/-- What the moves of a process mean for the lock, the channel and the condition; `σ'` is the state after the move. -/
structure Move.Turn (m : Move D Λ X C) (σ σ' : State D Λ X C) (p : Slot) : Prop where
  good : m.pc.Good code l x stand
  spawn : ∀ q k, m.spawn = some (q, k) → k.Good code l x stand
  lock : m.lock.Moves l ((σ.pc p).sec l x stand) (m.pc.sec l x stand)
  idle : m.pc.sec l x stand = .idle → ¬ cond m.data
  off : m.off = true → m.lock = .keep
  made : cond m.data → ¬ cond σ.data → (σ.pc p).sec l x stand ≠ .out ∧
    ((m.pc.sec l x stand = .dirty ∧ m.pc.reach l x stand = 0) ∨ (σ.pc p).sec l x stand = .paid)
  owed : (σ.pc p).sec l x stand = .dirty → cond m.data → ∀ q, σ'.Committed l x q → (σ.pc p).reach l x stand ≤ q →
    m.pc.sec l x stand = .dirty ∧ m.pc.reach l x stand ≤ q
  woken : ∀ q : Slot, σ'.Committed l x q → q.val < m.pc.reach l x stand →
    q.val < (σ.pc p).reach l x stand ∧ σ.Committed l x q
  commit : σ'.Committed l x p → σ.Committed l x p ∨ ((σ.pc p).sec l x stand ≠ .out ∧ ¬ cond m.data)

end Stand

section Moves

variable [DecidableEq Λ] [DecidableEq X] {code : C → Instr D Λ X C} {l : Λ} {x : X} {stand : C → Sec} {cond : D → Prop}
  {m : Move D Λ X C} {σ σ' : State D Λ X C} {c : CpuId} {p q : Slot}

theorem Pc.reach_out {pc : Pc Λ X C} (h : pc.sec l x stand = .out) : pc.reach l x stand = 0 := by
  cases pc with
  | wakeup1 w i | wakeup2 w i =>
    cases w with
    | user y k =>
      simp only [Pc.sec, Waker.sec] at h
      split_ifs at h
      simp [Pc.reach, Waker.reach, h]
    | _ => rfl
  | _ => simp [Pc.reach, h]

theorem Pc.reach_of_paid {pc : Pc Λ X C} (h : pc.sec l x stand = .paid) : pc.reach l x stand = NPROC := by
  cases pc with
  | wakeup1 w i | wakeup2 w i =>
    cases w with
    | user y k =>
      simp only [Pc.sec, Waker.sec] at h
      split_ifs at h with h1
      have hy : y ≠ x := fun hy => h1 ⟨hy, h⟩
      simp only [Pc.reach, Waker.reach, h, if_true, if_neg hy]
    | _ => cases h
  | _ => simp only [Pc.reach, h, if_true]

theorem LockOp.Moves.within {op : LockOp (Lock Λ)} {s s' : Sec} (hm : op.Moves l s s') :
    op.Within (.user l) (s ≠ .out) (s' ≠ .out) := by
  cases op with
  | keep => exact not_congr hm
  | take l0 =>
    cases l0 with
    | wait => exact not_congr hm
    | user l' =>
      simp only [LockOp.Moves, LockOp.Within, Lock.user.injEq] at hm ⊢
      split_ifs at hm ⊢
      · exact ⟨not_not.mpr hm.1, hm.2⟩
      · exact not_congr hm
  | drop l0 =>
    cases l0 with
    | wait => exact not_congr hm
    | user l' =>
      simp only [LockOp.Moves, LockOp.Within, Lock.user.injEq] at hm ⊢
      split_ifs at hm ⊢
      · exact ⟨hm.1, not_not.mpr hm.2⟩
      · exact not_congr hm

/-- The lock is held where the code does not stand outside. -/
theorem Wake.guarded (hw : Wake code l x stand cond σ) : Guarded (.user l) (fun k => k.sec l x stand ≠ .out) σ :=
  ⟨hw.hold, hw.held, fun q hq => not_not.mpr (hw.off q hq)⟩

omit [DecidableEq Λ] [DecidableEq X] in
/-- No process goes to sleep by another's move. -/
theorem Move.Ok.committed (hm : m.Ok σ p) (hq : q ≠ p) {plock : Slot → Option CpuId} {lock : Lock Λ → Option CpuId}
    (h : (m.result σ c p plock lock).Committed l x q) : σ.Committed l x q := by
  unfold State.Committed at h
  rw [Move.result_proc] at h
  have hsleep : (m.entry σ q).state = .sleeping → (σ.proc q).state = .sleeping := by
    refine hm.entry_of (P := fun e => e.state = .sleeping → (σ.proc q).state = .sleeping) id fun e he hst => ?_
    cases he with
    | keep hs => rw [← hs, hst]
    | wake _ he | alloc _ he | free _ _ he | start _ he =>
      rw [he] at hst
      cases hst
    | sleep hq' | yield hq' | exit hq' => exact absurd hq' hq
  revert h
  refine hm.result_pc (P := fun k => ((∃ k', k = .sleep3 (.user x l k')) ∨ (m.entry σ q).state = .sleeping ∧
    ∃ k', k = .sleep4 (.user x l k')) → σ.Committed l x q) hq (Or.imp_right fun hs => ⟨hsleep hs.1, hs.2⟩) ?_
  rintro k (⟨k', h⟩ | ⟨-, k', h⟩) <;> cases h

theorem Wake.move [Fintype Λ] (hi : Inv σ) (hw : Wake code l x stand cond σ) (hrun : (σ.cpu c).run = some p) (hm : m.Ok σ p)
    (hs : m.apply σ c p = .ok σ') (ht : m.Turn code l x stand cond σ σ' p) : Wake code l x stand cond σ' := by
  have hguard := hw.guarded.move hi hrun hm hs ht.lock.within ht.off fun q k hk => by
    have hg := ht.spawn q k hk
    obtain ⟨-, k', rfl⟩ := hm.spawn q k hk
    exact not_not.mpr hg
  obtain ⟨plock, lock, -, -, -, rfl⟩ := Move.apply_ok hs
  have hother : ∀ c' q, ((m.result σ c p plock lock).cpu c').run = some q → q ≠ p →
      (σ.cpu c').run = some q ∧ c' ≠ c := fun c' q hq hqp => by
    obtain ⟨hq0, -⟩ := Move.run_of_result hq
    refine ⟨hq0, fun hc => hqp ?_⟩
    rw [hc, hrun] at hq0
    exact (Option.some.inj hq0).symm
  have hpc : ∀ c' q, q ≠ p → (σ.cpu c').run = some q → (m.result σ c p plock lock).pc q = σ.pc q := fun c' q hq hon =>
    Move.result_pc_ne hq fun k hk => hi.spawn_off hm hk c' hon
  -- when another process holds the lock, this one neither held it nor made the condition true
  have halone : ∀ c' q, (σ.cpu c').run = some q → c' ≠ c → (σ.pc q).sec l x stand ≠ .out →
      (σ.pc p).sec l x stand = .out := fun c' q hq hc hsec => by
    by_contra hp
    have h1 := (hw.hold c' q hq).mp hsec
    rw [(hw.hold c p hrun).mp hp] at h1
    exact hc (Option.some.inj h1).symm
  -- a process that owes has the lock, so it does not leave its CPU
  have hdirty : m.pc.sec l x stand = .dirty → ((m.result σ c p plock lock).cpu c).run = some p := fun hd => by
    by_contra hgone
    refine hguard.off p (fun c' hc' => hgone ?_) (by rw [Move.result_pc_self, hd]; decide)
    rwa [hi.one c' c p (Move.run_of_result hc').1 hrun] at hc'
  have hcommit : ∀ q, (m.result σ c p plock lock).Committed l x q → σ.Committed l x q ∨
      (q = p ∧ (σ.pc p).sec l x stand ≠ .out ∧ ¬ cond m.data) := fun q hq => by
    by_cases hqp : q = p
    · subst hqp
      exact (ht.commit hq).imp_right fun h => ⟨rfl, h⟩
    · exact Or.inl (hm.committed hqp hq)
  refine ⟨fun q => ?_, hguard.hold, hguard.held, fun q hq => not_not.mp (hguard.off q hq), fun c' q hq hidle => ?_,
    fun q hq hcond => ?_, fun c' r hr q hlt hq => ?_⟩
  · by_cases hqp : q = p
    · rw [hqp, Move.result_pc_self]
      exact ht.good
    · exact Move.result_pc hqp (hw.good q) (ht.spawn q)
  · by_cases hqp : q = p
    · subst hqp
      rw [Move.result_pc_self] at hidle
      exact ht.idle hidle
    · obtain ⟨hq0, hc⟩ := hother c' q hq hqp
      rw [hpc c' q hqp hq0] at hidle
      have hno := hw.idle c' q hq0 hidle
      intro hcond
      exact (ht.made hcond hno).1 (halone c' q hq0 hc (by rw [hidle]; decide))
  · rcases hcommit q hq with hq0 | ⟨-, -, hno⟩
    · by_cases hold0 : cond σ.data
      · obtain ⟨c', r, hr, howe⟩ := hw.owe q hq0 hold0
        by_cases hrp : r = p
        · subst hrp
          obtain ⟨hd, hreach⟩ := ht.owed howe.1 hcond q hq howe.2
          exact ⟨c, r, hdirty hd, by rw [Move.result_pc_self]; exact ⟨hd, hreach⟩⟩
        · exact ⟨c', r, Move.run_result hrun (fun _ => hrp) hr, by rw [hpc c' r hrp hr]; exact howe⟩
      · rcases (ht.made hcond hold0).2 with ⟨hd, hreach⟩ | hpaid
        · refine ⟨c, p, hdirty hd, ?_⟩
          rw [Move.result_pc_self]
          exact ⟨hd, by rw [hreach]; exact Nat.zero_le _⟩
        · exact absurd hq0 (hw.woken c p hrun q (by rw [Pc.reach_of_paid hpaid]; exact q.isLt))
    · exact absurd hcond hno
  · by_cases hrp : r = p
    · subst hrp
      rw [Move.result_pc_self] at hlt
      obtain ⟨hlt0, hq0⟩ := ht.woken q hq hlt
      exact hw.woken c r hrun q hlt0 hq0
    · obtain ⟨hr0, hc⟩ := hother c' r hr hrp
      rw [hpc c' r hrp hr0] at hlt
      rcases hcommit q hq with hq0 | ⟨-, hsec, -⟩
      · exact hw.woken c' r hr0 q hlt hq0
      · exact hsec (halone c' r hr0 hc fun hout => by rw [Pc.reach_out hout] at hlt; exact absurd hlt (Nat.not_lt_zero _))

/-- The place is one of a process that sleeps on the channel. -/
def Pc.Asleep (l : Λ) (x : X) : Pc Λ X C → Prop
  | .sleep3 (.user y l' _) | .sleep4 (.user y l' _) => y = x ∧ l' = l
  | _ => False

omit [DecidableEq X] in
/-- What a move that does not put its process to sleep leaves of those that sleep. -/
theorem Move.Ok.committed_old [Fintype Λ] (hm : m.Ok σ p) (hs : m.apply σ c p = .ok σ') (hnc : ¬ m.pc.Asleep l x)
    (h : σ'.Committed l x q) : q ≠ p ∧ σ.Committed l x q := by
  obtain ⟨plock, lock, -, -, -, rfl⟩ := Move.apply_ok hs
  have hqp : q ≠ p := by
    rintro rfl
    unfold State.Committed at h
    rw [Move.result_pc_self] at h
    rcases h with ⟨k, hk⟩ | ⟨-, k, hk⟩
    · exact hnc (by rw [hk]; exact ⟨rfl, rfl⟩)
    · exact hnc (by rw [hk]; exact ⟨rfl, rfl⟩)
  exact ⟨hqp, hm.committed hqp h⟩

/-- A move that leaves the code where it stands, and puts nobody to sleep. -/
theorem Move.Turn.stay (hw : Wake code l x stand cond σ) (hrun : (σ.cpu c).run = some p)
    (hsec : m.pc.sec l x stand = (σ.pc p).sec l x stand)
    (hreach : m.pc.reach l x stand = (σ.pc p).reach l x stand) (hdata : m.data = σ.data)
    (hlock : m.lock.Moves l ((σ.pc p).sec l x stand) ((σ.pc p).sec l x stand)) (hgood : m.pc.Good code l x stand)
    (hspawn : ∀ q k, m.spawn = some (q, k) → k.Good code l x stand) (hoff : m.off = true → m.lock = .keep)
    (hold : ∀ q, σ'.Committed l x q → σ.Committed l x q) : m.Turn code l x stand cond σ σ' p where
  good := hgood
  spawn := hspawn
  lock := by rw [hsec]; exact hlock
  idle := fun h => by rw [hdata]; exact hw.idle c p hrun (hsec ▸ h)
  off := hoff
  made := fun h1 h2 => absurd (hdata ▸ h1) h2
  owed := fun hd _ q _ hle => ⟨hsec.trans hd, by rw [hreach]; exact hle⟩
  woken := fun q hq hlt => ⟨by rw [← hreach]; exact hlt, hold q hq⟩
  commit := fun hp => Or.inl (hold p hp)

theorem Move.Turn.same [Fintype Λ] (hw : Wake code l x stand cond σ) (hrun : (σ.cpu c).run = some p) (hm : m.Ok σ p)
    (hs : m.apply σ c p = .ok σ') {k : Pc Λ X C} (hpc : σ.pc p = k) (hsec : m.pc.sec l x stand = k.sec l x stand)
    (hreach : m.pc.reach l x stand = k.reach l x stand) (hdata : m.data = σ.data)
    (hlock : m.lock.Moves l (k.sec l x stand) (k.sec l x stand)) (hgood : m.pc.Good code l x stand)
    (hspawn : ∀ q k, m.spawn = some (q, k) → k.Good code l x stand) (hoff : m.off = true → m.lock = .keep)
    (hnc : ¬ m.pc.Asleep l x) : m.Turn code l x stand cond σ σ' p := by
  subst hpc
  exact .stay hw hrun hsec hreach hdata hlock hgood hspawn hoff fun _ hq => (hm.committed_old hs hnc hq).2

/-- Outside of `wakeup`, how far the process has come follows from where it stands. -/
theorem Pc.reach_congr {a b : Pc Λ X C} (h : a.sec l x stand = b.sec l x stand)
    (ha : a.reach l x stand = if a.sec l x stand = .paid then NPROC else 0)
    (hb : b.reach l x stand = if b.sec l x stand = .paid then NPROC else 0) : a.reach l x stand = b.reach l x stand := by
  rw [ha, hb, h]

/-- A move that takes or drops the lock, or comes to know that the condition is false. -/
theorem Move.Turn.change [Fintype Λ] (hm : m.Ok σ p)
    (hs : m.apply σ c p = .ok σ') (hdata : m.data = σ.data) (hnd : (σ.pc p).sec l x stand ≠ .dirty)
    (hnp : m.pc.reach l x stand = 0)
    (hlock : m.lock.Moves l ((σ.pc p).sec l x stand) (m.pc.sec l x stand))
    (hidle : m.pc.sec l x stand = .idle → ¬ cond σ.data) (hgood : m.pc.Good code l x stand)
    (hspawn : m.spawn = none) (hoff : m.off = false) (hnc : ¬ m.pc.Asleep l x) : m.Turn code l x stand cond σ σ' p where
  good := hgood
  spawn := fun q k hk => by rw [hspawn] at hk; cases hk
  lock := hlock
  idle := fun h => by rw [hdata]; exact hidle h
  off := fun h => by rw [hoff] at h; cases h
  made := fun h1 h2 => absurd (hdata ▸ h1) h2
  owed := fun hd => absurd hd hnd
  woken := fun q _ hlt => by rw [hnp] at hlt; exact absurd hlt (Nat.not_lt_zero _)
  commit := fun hp => absurd rfl (hm.committed_old hs hnc hp).1

end Moves

/-- The step does not forget a debt. -/
structure Attentive (code : C → Instr D Λ X C) (cond : D → Prop) (stand : C → Sec) (σ : State D Λ X C) (p : Slot)
    (n : ℕ) : Prop where
  act : ∀ k f d k', σ.pc p = .run k → code k = .act f → f n σ.data = some (d, k') → stand k = .dirty →
    stand k' = .clean → ¬ cond d
  killed : ∀ yes no, σ.pc p = .killed2 (.user yes no) → (σ.proc p).killed = true → stand yes = stand no

section Turns

variable [DecidableEq Λ] [Fintype Λ] [DecidableEq X] {code : C → Instr D Λ X C} {l : Λ} {x : X} {stand : C → Sec}
  {cond : D → Prop} {m : Move D Λ X C} {σ σ' : State D Λ X C} {c : CpuId} {p q : Slot} {n : ℕ}

/-- A step of the code itself on its data. -/
theorem act_turn (hd : Discipline code l x cond stand) (hw : Wake code l x stand cond σ) (hrun : (σ.cpu c).run = some p)
    (hm : m.Ok σ p) (hs : m.apply σ c p = .ok σ') {k k' : C} {f : ℕ → D → Option (D × C)} {d : D}
    (hpc : σ.pc p = .run k) (hk : code k = .act f) (hf : f n σ.data = some (d, k'))
    (hdebt : stand k = .dirty → stand k' = .clean → ¬ cond d)
    (hmv : m = { Move.goto σ (.run k') with data := d }) : m.Turn code l x stand cond σ σ' p := by
  obtain ⟨hout, hclean, hidle, hpaid⟩ := hd.act hk hf fun hi => hw.idle c p hrun (by rw [hpc]; exact hi)
  have hnc : ¬ m.pc.Asleep l x := by
    rw [hmv]
    exact id
  have hs0 : (σ.pc p).sec l x stand = stand k := by rw [hpc]; rfl
  have hs1 : m.pc.sec l x stand = stand k' := by rw [hmv]; rfl
  have hr1 : stand k' ≠ .paid → m.pc.reach l x stand = 0 := fun hne => by
    rw [hmv]
    simp [Pc.reach, Pc.sec, Move.goto, hne]
  have hdata : m.data = d := by rw [hmv]
  -- a condition that holds after the step: the code owes, or had called `wakeup` before
  have hdirty : cond d → (cond σ.data → stand k = .dirty) → stand k ≠ .paid → stand k' = .dirty := fun hcd hmade hnp => by
    cases hk' : stand k' with
    | out =>
      have hkd := hmade (hclean (Or.inl hk') hcd)
      rw [hout.mp hk'] at hkd
      cases hkd
    | clean => exact absurd hcd (hdebt (hmade (hclean (Or.inr hk') hcd)) hk')
    | idle => exact absurd hcd (hidle hk')
    | dirty => rfl
    | paid => exact absurd (hpaid hk') hnp
  refine ⟨by rw [hmv]; trivial, fun q k hk => ?_, ?_, fun hi => ?_, fun ho => ?_, fun h1 h2 => ?_, fun hsd hcd q _ _ => ?_,
    fun q hq hlt => ?_, fun hp => absurd rfl (hm.committed_old hs hnc hp).1⟩
  · rw [hmv] at hk
    cases hk
  · rw [hs0, hs1, hmv]
    exact hout
  · rw [hdata]
    exact hidle (hs1 ▸ hi)
  · rw [hmv] at ho
    cases ho
  · rw [hdata] at h1
    rw [hs0, hs1]
    refine ⟨fun ho => h2 (hclean (Or.inl (hout.mpr ho)) h1), ?_⟩
    by_cases hp : stand k = .paid
    · exact Or.inr hp
    · have hk' := hdirty h1 (fun hc => absurd hc h2) hp
      exact Or.inl ⟨hk', hr1 (by rw [hk']; decide)⟩
  · rw [hdata] at hcd
    rw [hs0] at hsd
    have hk' := hdirty hcd (fun _ => hsd) (by rw [hsd]; decide)
    exact ⟨hs1.trans hk', by rw [hr1 (by rw [hk']; decide)]; exact Nat.zero_le _⟩
  · have hp : stand k' = .paid := by
      by_contra hp
      rw [hr1 hp] at hlt
      exact absurd hlt (Nat.not_lt_zero _)
    refine ⟨?_, (hm.committed_old hs hnc hq).2⟩
    rw [Pc.reach_of_paid (hs0.trans (hpaid hp))]
    exact q.isLt

/-- A move that has nothing to do with the lock. -/
theorem Move.Turn.quiet (hw : Wake code l x stand cond σ) (hrun : (σ.cpu c).run = some p) (hm : m.Ok σ p)
    (hs : m.apply σ c p = .ok σ') {k : Pc Λ X C} (hpc : σ.pc p = k) (h0 : k.sec l x stand = .out)
    (h1 : m.pc.sec l x stand = .out)
    (hdata : m.data = σ.data) (hlock : m.lock.Moves l .out .out) (hgood : m.pc.Good code l x stand)
    (hspawn : ∀ q k, m.spawn = some (q, k) → k.Good code l x stand) (hoff : m.off = true → m.lock = .keep)
    (hnc : ¬ m.pc.Asleep l x) : m.Turn code l x stand cond σ σ' p :=
  .same hw hrun hm hs hpc (h1.trans h0.symm) (by rw [Pc.reach_out h0, Pc.reach_out h1]) hdata (by rw [h0]; exact hlock)
    hgood hspawn hoff hnc

theorem call_turn (hd : Discipline code l x cond stand) (hw : Wake code l x stand cond σ) (hrun : (σ.cpu c).run = some p)
    {k : C} (hpc : σ.pc p = .run k) (hn : call code σ p n k = .ok m) (hs : m.apply σ c p = .ok σ')
    (hdebt : ∀ f d k', code k = .act f → f n σ.data = some (d, k') → stand k = .dirty → stand k' = .clean → ¬ cond d) :
    m.Turn code l x stand cond σ σ' p := by
  have hm := call_ok hpc hn
  have hs0 : (σ.pc p).sec l x stand = stand k := by rw [hpc]; rfl
  have hidle0 : stand k = .idle → ¬ cond σ.data := fun h => hw.idle c p hrun (hs0.trans h)
  unfold call at hn
  cases hk : code k with rw [hk] at hn
  | act f =>
    dsimp only at hn
    split at hn
    · exact act_turn hd hw hrun hm hs hpc hk ‹_› (hdebt f _ _ hk ‹_›) (Outcome.ok.inj hn).symm
    · cases hn
  | acquire l' k' =>
    cases hn
    have hrule := hd.acquire hk
    split_ifs at hrule with hl
    · refine .change hm hs rfl (by rw [hs0, hrule.1]; decide) ?_ ?_ ?_ trivial rfl rfl id
      · simp [Pc.reach, Pc.sec, Move.goto, hrule.2]
      · simp only [LockOp.Moves, if_pos hl]
        exact ⟨hs0.trans hrule.1, by simp [Pc.sec, Move.goto, hrule.2]⟩
      · simp [Pc.sec, Move.goto, hrule.2]
    · exact .same hw hrun hm hs hpc hrule (Pc.reach_congr hrule rfl rfl) rfl (by simp [LockOp.Moves, hl]) trivial nofun nofun id
  | release l' k' =>
    cases hn
    have hrule := hd.release hk
    split_ifs at hrule with hl
    · refine .change hm hs rfl (by rw [hs0]; exact hrule.2.1) ?_ ?_ ?_ trivial rfl rfl id
      · simp [Pc.reach, Pc.sec, Move.goto, hrule.2.2]
      · simp only [LockOp.Moves, if_pos hl]
        exact ⟨by rw [hs0]; exact hrule.1, hrule.2.2⟩
      · simp [Pc.sec, Move.goto, hrule.2.2]
    · exact .same hw hrun hm hs hpc hrule (Pc.reach_congr hrule rfl rfl) rfl (by simp [LockOp.Moves, hl]) trivial nofun nofun id
  | sleep y l' k' =>
    cases hn
    obtain ⟨hrule, hx⟩ := hd.sleep hk
    split_ifs at hrule with hl
    · have hsec : (Pc.sleep1 (.user y l' k') : Pc Λ X C).sec l x stand = if y = x then .idle else .clean := by
        simp [Pc.sec, Sleeper.sec, hl]
      refine .change hm hs rfl (by rw [hs0]; exact hrule.2.1) ?_ ?_ (fun hi => ?_) ⟨fun _ => hrule.2.2, fun hy => hl⟩ rfl rfl id
      · simp only [Pc.reach, Move.goto, hsec]
        split_ifs <;> simp_all
      · simp only [LockOp.Moves, Move.goto, hsec, hs0]
        split_ifs <;> simp [hrule.1]
      · by_cases hy : y = x
        · exact hidle0 (hx hy).2
        · simp [Move.goto, hsec, hy] at hi
    · have hsec : (Pc.sleep1 (.user y l' k') : Pc Λ X C).sec l x stand = stand k := by
        simp [Pc.sec, Sleeper.sec, hl, hrule]
      exact .same hw hrun hm hs hpc hsec (Pc.reach_congr hsec rfl rfl) rfl Iff.rfl
        ⟨fun he => absurd he hl, fun hy => (hx hy).1⟩ nofun nofun id
  | wakeup y k' =>
    cases hn
    have hrule := hd.wakeup hk
    split_ifs at hrule with hy
    · rcases hrule with ⟨h0, h1⟩ | ⟨h0, h1⟩
      · have hsec : (Pc.wakeup1 (.user y k') 0 : Pc Λ X C).sec l x stand = .out := by
          simp [Pc.sec, Waker.sec, h1]
        exact .quiet hw hrun hm hs hpc h0 hsec rfl Iff.rfl (fun _ => Or.inl h1) nofun nofun id
      · have hsec : (Pc.wakeup1 (.user y k') 0 : Pc Λ X C).sec l x stand = .dirty := by
          simp [Pc.sec, Waker.sec, hy, h1]
        have hreach : (Pc.wakeup1 (.user y k') 0 : Pc Λ X C).reach l x stand = 0 := by
          simp [Pc.reach, Waker.reach, hy, h1]
        refine ⟨fun _ => Or.inr h1, nofun, ?_, ?_, nofun, fun h1 h2 => absurd h1 h2, fun _ _ q _ _ => ⟨hsec, ?_⟩,
          fun q _ hlt => ?_, fun hp => absurd rfl (hm.committed_old hs id hp).1⟩
        · simp only [LockOp.Moves, Move.goto, hsec, hs0]
          simp [h0]
        · simp only [Move.goto, hsec]
          exact nofun
        · simp only [Move.goto, hreach]
          exact Nat.zero_le _
        · simp only [Move.goto, hreach] at hlt
          exact absurd hlt (Nat.not_lt_zero _)
    · refine .same hw hrun hm hs hpc ?_ ?_ rfl Iff.rfl (fun he => absurd he hy) nofun nofun id
      · simp [Pc.sec, Waker.sec, Move.goto, hy, hrule]
      · simp only [Pc.reach, Waker.reach, Move.goto, hrule, if_neg hy]
        rfl
  | killed yes no =>
    cases hn
    have hrule := hd.killed hk
    exact .same hw hrun hm hs hpc hrule (Pc.reach_congr hrule rfl rfl) rfl Iff.rfl ⟨k, hk⟩ nofun nofun id
  | setkilled k' =>
    cases hn
    have hrule := hd.setkilled hk
    exact .same hw hrun hm hs hpc hrule (Pc.reach_congr hrule rfl rfl) rfl Iff.rfl trivial nofun nofun id
  | kkill pid k' =>
    cases hn
    exact .quiet hw hrun hm hs hpc (hd.kkill hk).1 rfl rfl Iff.rfl (hd.kkill hk).2 nofun nofun id
  | kfork k' child =>
    cases hn
    exact .quiet hw hrun hm hs hpc (hd.kfork hk).1 rfl rfl Iff.rfl (hd.kfork hk).2 nofun nofun id
  | kexit status =>
    dsimp only at hn
    split_ifs at hn
    cases hn
    exact .quiet hw hrun hm hs hpc (hd.kexit hk) rfl rfl Iff.rfl trivial nofun nofun id
  | kwait k' =>
    cases hn
    exact .quiet hw hrun hm hs hpc (hd.kwait hk).1 rfl rfl Iff.rfl (hd.kwait hk).2 nofun nofun id

section Sleeping

variable (hw : Wake code l x stand cond σ) (hrun : (σ.cpu c).run = some p) (hm : m.Ok σ p) (hs : m.apply σ c p = .ok σ')

include hw hrun hm hs

/-- `sleep` releases the lock: the process is asleep from here on. -/
theorem sleep2_turn {s : Sleeper Λ X C} (hpc : σ.pc p = .sleep2 s)
    (hmv : m = { Move.goto σ (.sleep3 s) with lock := .drop s.lock }) : m.Turn code l x stand cond σ σ' p := by
  have hgood : s.Good l x stand := by
    have := hw.good p
    rwa [hpc] at this
  subst hmv
  cases s with
  | wait k =>
    exact .quiet hw hrun hm hs hpc rfl rfl rfl Iff.rfl hgood (by simp [Move.goto]) (by simp [Move.goto]) id
  | user y l' k =>
    by_cases hl : l' = l
    · have hs0 : (σ.pc p).sec l x stand = if y = x then .idle else .clean := by
        rw [hpc]
        simp [Pc.sec, Sleeper.sec, hl]
      have hs1 : (Pc.sleep3 (.user y l' k) : Pc Λ X C).sec l x stand = .out := by
        simp [Pc.sec, Sleeper.sec, hl]
      refine ⟨hgood, by simp [Move.goto], ?_, ?_, by simp [Move.goto], fun h1 h2 => absurd h1 h2, fun hd => ?_, fun q _ hlt => ?_, fun hp => ?_⟩
      · simp only [LockOp.Moves, Sleeper.lock, if_pos hl]
        refine ⟨?_, hs1⟩
        rw [hs0]
        split_ifs <;> decide
      · simp only [Move.goto, hs1]
        simp
      · rw [hs0] at hd
        split_ifs at hd
      · simp only [Move.goto, Pc.reach_out hs1] at hlt
        exact absurd hlt (Nat.not_lt_zero _)
      · obtain ⟨plock, lock, -, -, -, rfl⟩ := Move.apply_ok hs
        unfold State.Committed at hp
        rw [Move.result_pc_self] at hp
        rcases hp with ⟨k', hk⟩ | ⟨-, k', hk⟩
        · have hy : y = x := by
            cases hk
            rfl
          rw [if_pos hy] at hs0
          exact Or.inr ⟨by rw [hs0]; decide, hw.idle c p hrun hs0⟩
        · cases hk
    · have hne : y ≠ x := fun hy => hl (hgood.2 hy)
      have hsec : (Pc.sleep3 (.user y l' k) : Pc Λ X C).sec l x stand = (Pc.sleep2 (.user y l' k)).sec l x stand := by
        simp [Pc.sec, Sleeper.sec, hl]
      exact .same hw hrun hm hs hpc hsec (Pc.reach_congr hsec rfl rfl) rfl (by simp [LockOp.Moves, Sleeper.lock, hl]) hgood
        (by simp [Move.goto]) (by simp [Move.goto]) fun h => hne h.1

/-- The end of `sleep` takes the lock again. -/
theorem sleep5_turn {s : Sleeper Λ X C} (hpc : σ.pc p = .sleep5 s)
    (hmv : m = { Move.goto σ s.back with lock := .take s.lock }) : m.Turn code l x stand cond σ σ' p := by
  have hgood : s.Good l x stand := by
    have := hw.good p
    rwa [hpc] at this
  subst hmv
  cases s with
  | wait k =>
    exact .quiet hw hrun hm hs hpc rfl rfl rfl Iff.rfl hgood (by simp [Move.goto]) (by simp [Move.goto]) id
  | user y l' k =>
    have hnc : ¬ (Pc.run k : Pc Λ X C).Asleep l x := id
    by_cases hl : l' = l
    · have hs0 : (σ.pc p).sec l x stand = .out := by
        rw [hpc]
        simp [Pc.sec, Sleeper.sec, hl]
      have hclean := hgood.1 hl
      refine .change hm hs rfl (by rw [hs0]; decide) ?_ ?_ ?_ trivial rfl rfl hnc
      · simp [Sleeper.back, Pc.reach, Pc.sec, Move.goto, hclean]
      · simp only [LockOp.Moves, Sleeper.lock, if_pos hl]
        exact ⟨hs0, by simp [Sleeper.back, Pc.sec, Move.goto, hclean]⟩
      · simp [Sleeper.back, Pc.sec, Move.goto, hclean]
    · have hsec : (Pc.run k : Pc Λ X C).sec l x stand = (Pc.sleep5 (.user y l' k)).sec l x stand := by
        simp [Pc.sec, Sleeper.sec, hl]
      exact .same hw hrun hm hs hpc hsec (Pc.reach_congr hsec rfl rfl) rfl (by simp [LockOp.Moves, Sleeper.lock, hl]) trivial
        (by simp [Move.goto]) (by simp [Move.goto]) hnc

/-- The loop of `wakeup` is over, or passes a slot that is not asleep on the channel. -/
theorem wakeup_turn {w : Waker X C} {i : ℕ} (hsec : (σ.pc p).sec l x stand = w.sec x stand)
    (hreach : (σ.pc p).reach l x stand = w.reach x stand i) (hgood : w.Good x stand) (hdata : m.data = σ.data)
    (hlock : m.lock = .keep) (hspawn : m.spawn = none) (hnc : ¬ m.pc.Asleep l x)
    (hend : (∃ j, m.pc = .wakeup1 w j ∧ i ≤ j ∧
        ∀ q, σ'.Committed l x q → w.chan = .user x → i ≤ q.val → j ≤ q.val) ∨
      (m.pc = w.back ∧ NPROC ≤ i)) : m.Turn code l x stand cond σ σ' p := by
  have hmoves : ∀ s, m.lock.Moves l s s := fun s => by rw [hlock]; exact Iff.rfl
  have hsp : ∀ q k, m.spawn = some (q, k) → k.Good code l x stand := fun q k hk => by rw [hspawn] at hk; cases hk
  have hkeep : m.off = true → m.lock = .keep := fun _ => hlock
  rcases hend with ⟨j, hpc', hij, hpass⟩ | ⟨hpc', hi⟩
  · have hs1 : m.pc.sec l x stand = w.sec x stand := by rw [hpc']; rfl
    have hg1 : m.pc.Good code l x stand := by rw [hpc']; exact hgood
    have hr1 : m.pc.reach l x stand = w.reach x stand j := by rw [hpc']; rfl
    by_cases hchan : w.chan = .user x ∧ w.sec x stand = .dirty
    · obtain ⟨hchan, hdirty⟩ := hchan
      have hrw : ∀ n, w.reach x stand n ≤ n := fun n => by
        cases w with
        | user y k =>
          obtain rfl : y = x := by cases hchan; rfl
          simp only [Waker.reach, if_true]
          split_ifs <;> omega
        | _ => exact Nat.zero_le _
      have hrw' : w.reach x stand i = i ∧ w.reach x stand j = j ∨ w.reach x stand j = 0 := by
        cases w with
        | user y k =>
          obtain rfl : y = x := by cases hchan; rfl
          simp only [Waker.reach, if_true]
          split_ifs <;> simp
        | _ => exact Or.inr rfl
      refine ⟨hg1, hsp, ?_, fun hid => ?_, hkeep, fun h1 h2 => absurd (hdata ▸ h1) h2, fun _ _ q hq hle => ?_,
        fun q hq hlt => ?_, fun hp => absurd rfl (hm.committed_old hs hnc hp).1⟩
      · rw [hs1, hsec]
        exact hmoves _
      · rw [hs1, hdirty] at hid
        cases hid
      · refine ⟨hs1.trans hdirty, ?_⟩
        rw [hr1]
        rw [hreach] at hle
        rcases hrw' with ⟨h1, h2⟩ | h2
        · rw [h2]
          exact hpass q hq hchan (h1 ▸ hle)
        · rw [h2]
          exact Nat.zero_le _
      · refine ⟨?_, (hm.committed_old hs hnc hq).2⟩
        rw [hr1] at hlt
        rw [hreach]
        rcases hrw' with ⟨h1, h2⟩ | h2
        · rw [h2] at hlt
          rw [h1]
          by_contra hge
          exact absurd (hpass q hq hchan (not_lt.mp hge)) (not_le.mpr hlt)
        · rw [h2] at hlt
          exact absurd hlt (Nat.not_lt_zero _)
    · refine .same hw hrun hm hs rfl (hs1.trans hsec.symm) ?_ hdata (hmoves _) hg1 hsp hkeep hnc
      rw [hr1, hreach]
      cases w with
      | user y k =>
        simp only [Waker.reach]
        split_ifs with hk hy
        · refine absurd ⟨by simp [Waker.chan, hy], ?_⟩ hchan
          simp [Waker.sec, hk, hy]
        · rfl
        · rfl
      | _ => rfl
  · cases w with
    | user y k =>
      have hs1 : m.pc.sec l x stand = stand k := by rw [hpc']; rfl
      have hr1 : m.pc.reach l x stand = if stand k = .paid then NPROC else 0 := by rw [hpc']; rfl
      by_cases hpaid : y = x ∧ stand k = .paid
      · have hs0 : (σ.pc p).sec l x stand = .dirty := by rw [hsec]; simp [Waker.sec, hpaid]
        have hr0 : (σ.pc p).reach l x stand = i := by rw [hreach]; simp [Waker.reach, hpaid]
        refine ⟨by rw [hpc']; trivial, hsp, ?_, fun hid => ?_, hkeep, fun h1 h2 => absurd (hdata ▸ h1) h2,
          fun _ _ q _ hle => ?_, fun q hq _ => ⟨?_, (hm.committed_old hs hnc hq).2⟩,
          fun hp => absurd rfl (hm.committed_old hs hnc hp).1⟩
        · rw [hs1, hs0, hpaid.2, hlock]
          simp [LockOp.Moves]
        · rw [hs1, hpaid.2] at hid
          cases hid
        · rw [hr0] at hle
          exact absurd q.isLt (by omega)
        · rw [hr0]
          exact lt_of_lt_of_le q.isLt hi
      · refine .same hw hrun hm hs rfl ?_ ?_ hdata (hmoves _) (by rw [hpc']; trivial) hsp hkeep hnc
        · rw [hs1, hsec]
          simp [Waker.sec, hpaid]
        · rw [hr1, hreach]
          simp only [Waker.reach]
          split_ifs with hk hy
          · exact absurd ⟨hy, hk⟩ hpaid
          · rfl
          · rfl
    | reparent status j | exit status j =>
      exact .quiet hw hrun hm hs rfl hsec (by rw [hpc']; rfl) hdata (hmoves _) (by rw [hpc']; trivial) hsp hkeep hnc

end Sleeping

/-- The process `wakeup` looks at does not sleep on the channel afterwards. -/
theorem wakeup2_wakes (hi : Inv σ) (hrun : (σ.cpu c).run = some p) (hm : m.Ok σ p) (hs : m.apply σ c p = .ok σ')
    {w : Waker X C} (hpc : σ.pc p = .wakeup2 w q) (hchan : w.chan = .user x)
    (hput : m.put = some (q, if (σ.proc q).state = .sleeping ∧ (σ.proc q).chan = some w.chan then
      { σ.proc q with state := .runnable } else σ.proc q)) (hnc : ¬ m.pc.Asleep l x) : ¬ σ'.Committed l x q := fun hq => by
  obtain ⟨hqp, hold⟩ := hm.committed_old hs hnc hq
  obtain ⟨plock, lock, -, -, -, rfl⟩ := Move.apply_ok hs
  rcases hold with ⟨k, hk⟩ | ⟨hsl, k, hk⟩
  · -- it would hold its own lock
    have hon : ¬ σ.Off q := fun ho => by
      have := hi.rest q ho
      rw [hk] at this
      exact this
    obtain ⟨c', hc'⟩ := not_forall_not.mp hon
    have h1 : σ.plock q = some c' := (hi.plock c' q).mpr (by rw [State.holds, hc']; simp only [hk]; rfl)
    have h2 : σ.plock q = some c := (hi.plock c q).mpr (by rw [State.holds, hrun]; simp only [hpc]; rfl)
    have hc : c' = c := Option.some.inj (h1.symm.trans h2)
    rw [hc, hrun] at hc'
    exact hqp (Option.some.inj hc').symm
  · have hf := hi.fits q
    unfold State.Fits at hf
    rw [hsl] at hf
    obtain ⟨-, s, hs', hch⟩ := hf
    rw [hk] at hs'
    obtain rfl := Pc.sleep4.inj hs'
    have hstate : (m.entry σ q).state = .runnable := by
      unfold Move.entry
      simp only [hput, if_true]
      rw [if_pos ⟨hsl, by rw [hch, hchan]; rfl⟩]
    unfold State.Committed at hq
    rw [Move.result_proc, hstate] at hq
    rcases hq with ⟨k', hk'⟩ | ⟨hx, -⟩
    · have hq' : ∀ k0, m.spawn ≠ some (q, k0) := fun k0 hk0 => by
        have := (hm.spawn q k0 hk0).1
        rw [hsl] at this
        cases this
      rw [Move.result_pc_ne hqp hq', hk] at hk'
      cases hk'
    · cases hx

theorem next_turn (hd : Discipline code l x cond stand) (hi : Inv σ) (hw : Wake code l x stand cond σ)
    (hrun : (σ.cpu c).run = some p) (hn : next code σ p n = .ok m) (hs : m.apply σ c p = .ok σ')
    (ha : Attentive code cond stand σ p n) : m.Turn code l x stand cond σ σ' p := by
  have hm := next_ok hi hrun hn
  have hgood := hw.good p
  have hcalm := hi.calm p
  unfold next at hn
  generalize hpc : σ.pc p = k at hn hgood hcalm
  cases k with
  | run k => exact call_turn hd hw hrun hpc hn hs fun f d k' => ha.act k f d k' hpc
  | sleep1 s | sleep4 s =>
    cases hn
    exact .same hw hrun hm hs hpc rfl rfl rfl Iff.rfl hgood nofun nofun id
  | sleep2 s => exact sleep2_turn hw hrun hm hs hpc (Outcome.ok.inj hn).symm
  | sleep3 s =>
    cases hn
    refine .stay hw hrun (by rw [hpc]; rfl) (by rw [hpc]; rfl) rfl Iff.rfl hgood nofun
      (fun _ => rfl) fun q hq => ?_
    obtain ⟨plock, lock, -, -, -, rfl⟩ := Move.apply_ok hs
    by_cases hqp : q = p
    · subst hqp
      unfold State.Committed at hq ⊢
      rw [Move.result_pc_self] at hq
      rcases hq with ⟨k, hk⟩ | ⟨-, k, hk⟩
      · cases hk
      · obtain rfl := Pc.sleep4.inj hk
        exact Or.inl ⟨k, hpc⟩
    · exact hm.committed hqp hq
  | sleep5 s => exact sleep5_turn hw hrun hm hs hpc (Outcome.ok.inj hn).symm
  | wakeup1 w i =>
    have hsec : (σ.pc p).sec l x stand = w.sec x stand := by rw [hpc]; rfl
    have hreach : (σ.pc p).reach l x stand = w.reach x stand i := by rw [hpc]; rfl
    dsimp only at hn
    cases hsl : slot? i with rw [hsl] at hn
    | none =>
      cases hn
      have hle : NPROC ≤ i := by
        unfold slot? at hsl
        split_ifs at hsl with hlt
        omega
      refine wakeup_turn hw hrun hm hs hsec hreach hgood rfl rfl rfl ?_ (Or.inr ⟨rfl, hle⟩)
      cases w <;> exact id
    | some q =>
      have hqi : q.val = i := by
        unfold slot? at hsl
        split_ifs at hsl with hlt
        exact congrArg Fin.val (Option.some.inj hsl).symm
      dsimp only at hn
      split_ifs at hn with hqp <;> cases hn
      · have hnc : ¬ (Pc.wakeup1 w (i + 1) : Pc Λ X C).Asleep l x := id
        refine wakeup_turn hw hrun hm hs hsec hreach hgood rfl rfl rfl hnc
          (Or.inl ⟨i + 1, rfl, Nat.le_succ i, fun r hr _ hle => ?_⟩)
        have hrp := (hm.committed_old hs hnc hr).1
        have hne : r.val ≠ i := fun he => hrp (hqp ▸ Fin.ext (he.trans hqi.symm))
        omega
      · refine .same hw hrun hm hs hpc rfl ?_ rfl Iff.rfl hgood nofun nofun id
        rw [← hqi]
        rfl
  | wakeup2 w q =>
    have hn := Outcome.ok.inj hn
    have hnc : ¬ m.pc.Asleep l x := by
      rw [← hn]
      exact id
    have hput : m.put = some (q, if (σ.proc q).state = .sleeping ∧ (σ.proc q).chan = some w.chan then
        { σ.proc q with state := .runnable } else σ.proc q) := by rw [← hn]
    refine wakeup_turn hw hrun hm hs (by rw [hpc]; rfl) (by rw [hpc]; rfl) hgood (by rw [← hn]; rfl) (by rw [← hn]; rfl)
      (by rw [← hn]; rfl) hnc (Or.inl ⟨q + 1, by rw [← hn]; rfl, Nat.le_succ _, fun r hr hchan hle => ?_⟩)
    have hne : r.val ≠ q.val := fun he => by
      have hrq : r = q := Fin.ext he
      rw [hrq] at hr
      exact wakeup2_wakes hi hrun hm hs hpc hchan hput hnc hr
    omega
  | yield1 k | yield2 k =>
    cases hn
    exact .same hw hrun hm hs hpc rfl rfl rfl Iff.rfl hgood nofun (fun _ => rfl) id
  | yield3 k =>
    cases hn
    refine .quiet hw hrun hm hs hpc hgood.2 hgood.2 rfl Iff.rfl hgood.1 nofun nofun ?_
    intro hk
    have hnone := hcalm.1
    cases k with
    | sleep3 s | sleep4 s => cases hnone
    | _ => exact hk
  | forkret k | setkilled1 k | setkilled2 k =>
    cases hn
    exact .same hw hrun hm hs hpc rfl rfl rfl Iff.rfl trivial nofun nofun id
  | killed1 a =>
    cases hn
    refine .same hw hrun hm hs hpc ?_ ?_ rfl Iff.rfl ?_ nofun nofun id
    · cases a <;> rfl
    · cases a <;> rfl
    · cases a <;> exact hgood
  | killed2 a =>
    cases hn
    cases a with
    | user yes no =>
      by_cases hk : (σ.proc p).killed = true
      · have hstand := ha.killed yes no hpc hk
        refine .same hw hrun hm hs hpc ?_ ?_ rfl Iff.rfl ?_ nofun nofun ?_
        · simp only [Move.goto, hk, if_true, Asker.yes, Pc.sec, hstand]
        · simp only [Move.goto, hk, if_true, Asker.yes, Pc.reach, Pc.sec, hstand]
          rfl
        · simp only [Move.goto, hk, if_true, Asker.yes, Pc.Good]
        · simp only [Move.goto, hk, if_true, Asker.yes]
          exact id
      · refine .same hw hrun hm hs hpc ?_ ?_ rfl Iff.rfl ?_ nofun nofun ?_
        · simp only [Move.goto, hk, Asker.no, Pc.sec]
          rfl
        · simp only [Move.goto, hk, Asker.no, Pc.reach]
          rfl
        · simp only [Move.goto, hk, Asker.no]
          trivial
        · simp only [Move.goto, hk, Asker.no]
          exact id
    | wait k =>
      have hquiet : ∀ b : Bool, (if b then Asker.yes (.wait k) else Asker.no (.wait k) : Pc Λ X C).sec l x stand = .out ∧
          (if b then Asker.yes (.wait k) else Asker.no (.wait k) : Pc Λ X C).Good code l x stand ∧
          ¬ (if b then Asker.yes (.wait k) else Asker.no (.wait k) : Pc Λ X C).Asleep l x := fun b => by
        cases b <;> exact ⟨rfl, hgood, id⟩
      obtain ⟨h1, h2, h3⟩ := hquiet (σ.proc p).killed
      exact .quiet hw hrun hm hs hpc rfl h1 rfl Iff.rfl h2 nofun nofun h3
  | kill1 pid k i =>
    dsimp only at hn
    split at hn <;> cases hn
    · exact .quiet hw hrun hm hs hpc rfl (hgood (-1)) rfl Iff.rfl trivial nofun nofun id
    · exact .quiet hw hrun hm hs hpc rfl rfl rfl Iff.rfl hgood nofun nofun id
  | fork1 k child i =>
    dsimp only at hn
    split at hn <;> cases hn
    · exact .quiet hw hrun hm hs hpc rfl (hgood.2 (-1)) rfl Iff.rfl trivial nofun nofun id
    · exact .quiet hw hrun hm hs hpc rfl rfl rfl Iff.rfl hgood nofun nofun id
  | kill2 pid k q =>
    dsimp only at hn
    by_cases hpid : (σ.proc q).pid = pid
    · rw [if_pos hpid] at hn
      cases hn
      exact .quiet hw hrun hm hs hpc rfl (hgood 0) rfl Iff.rfl trivial nofun nofun id
    · rw [if_neg hpid] at hn
      cases hn
      exact .quiet hw hrun hm hs hpc rfl rfl rfl Iff.rfl hgood nofun nofun id
  | fork2 k child q =>
    dsimp only at hn
    split_ifs at hn <;> cases hn
    · refine .quiet hw hrun hm hs hpc rfl rfl rfl Iff.rfl hgood.2 (fun q' k' hk => ?_) nofun id
      obtain ⟨-, rfl⟩ := Prod.mk.inj (Option.some.inj hk)
      exact hgood.1
    · exact .quiet hw hrun hm hs hpc rfl rfl rfl Iff.rfl hgood nofun nofun id
  | fork3 k np =>
    dsimp only at hn
    split_ifs at hn <;> cases hn
    · exact .quiet hw hrun hm hs hpc rfl (hgood (-1)) rfl Iff.rfl trivial nofun nofun id
    · exact .quiet hw hrun hm hs hpc rfl rfl rfl Iff.rfl hgood nofun nofun id
  | fork4 k np pid | fork5 k np pid | fork6 k np pid | wait1 k =>
    cases hn
    exact .quiet hw hrun hm hs hpc rfl rfl rfl Iff.rfl hgood nofun nofun id
  | fork7 k np r | wait4 k r =>
    cases hn
    exact .quiet hw hrun hm hs hpc rfl (hgood r) rfl Iff.rfl trivial nofun nofun id
  | exit1 status | exit3 status | exit4 status =>
    cases hn
    exact .quiet hw hrun hm hs hpc rfl rfl rfl Iff.rfl trivial nofun nofun id
  | exit5 =>
    cases hn
    exact .quiet hw hrun hm hs hpc rfl rfl rfl Iff.rfl trivial nofun (fun _ => rfl) id
  | exit2 status i =>
    dsimp only at hn
    split at hn <;> split at hn <;> cases hn <;> exact .quiet hw hrun hm hs hpc rfl rfl rfl Iff.rfl trivial nofun nofun id
  | dead => cases hn
  | wait2 k i havekids =>
    dsimp only at hn
    split at hn <;> split_ifs at hn <;> cases hn <;> exact .quiet hw hrun hm hs hpc rfl rfl rfl Iff.rfl hgood nofun nofun id
  | wait3 k q =>
    dsimp only at hn
    split_ifs at hn <;> cases hn <;> exact .quiet hw hrun hm hs hpc rfl rfl rfl Iff.rfl hgood nofun nofun id

end Turns

section Runs

variable [DecidableEq Λ] [Fintype Λ] [DecidableEq X] {code : C → Instr D Λ X C} {l : Λ} {x : X} {stand : C → Sec}
  {cond : D → Prop} {σ σ' : State D Λ X C} {c : CpuId} {p : Slot}

omit [Fintype Λ] in
theorem Wake.scheduler (hi : Inv σ) (hw : Wake code l x stand cond σ) (hrun : (σ.cpu c).run = none)
    (hs : scheduler c σ = .ok σ') : Wake code l x stand cond σ' := by
  have hguard := hw.guarded.scheduler hi hrun hs
  obtain ⟨-, hpc, hdata, hcpu, hc⟩ := scheduler_run hrun hs
  have hback : ∀ {c' q}, (σ.cpu c').run = some q → (σ'.cpu c').run = some q := fun {c' q} hq => by
    rw [hcpu c', hq]
    rintro rfl
    rw [hrun] at hq
    cases hq
  -- the process that is started does not hold the lock
  have hold : ∀ {c' q}, (σ'.cpu c').run = some q → (σ.pc q).sec l x stand ≠ .out → (σ.cpu c').run = some q := by
    intro c' q hq hsec
    by_cases hcc : c' = c
    · subst hcc
      rcases hc with hno | ⟨p, hp, hst⟩
      · rw [hno] at hq
        cases hq
      · obtain rfl : p = q := Option.some.inj (hp.symm.trans hq)
        exact absurd (hw.off p (hi.off hst nofun nofun)) hsec
    · rwa [← hcpu c' hcc]
  have hsleep : ∀ q, (σ'.proc q).state = .sleeping → (σ.proc q).state = .sleeping := fun q hq => by
    rcases scheduler_cases hs with ⟨p, -, -, rfl⟩ | ⟨p, -, -, rfl⟩ | ⟨p, -, -, rfl⟩ | ⟨p, -, -, rfl⟩
    · exact hq
    · by_cases hqp : q = p
      · simp only [hqp, Function.update_self] at hq
        cases hq
      · simpa only [Function.update_of_ne hqp] using hq
    · exact hq
    · exact hq
  have hcom : ∀ q, σ'.Committed l x q → σ.Committed l x q := fun q hq => by
    unfold State.Committed at hq
    rw [hpc] at hq
    exact hq.imp_right fun h => ⟨hsleep q h.1, h.2⟩
  refine ⟨hpc ▸ hw.good, hguard.hold, hguard.held, fun q hq => not_not.mp (hguard.off q hq), fun c' q hq hidle => ?_,
    fun q hq hcond => ?_, fun c' r hr q hlt hq => ?_⟩
  · rw [hpc] at hidle
    rw [hdata]
    exact hw.idle c' q (hold hq (by rw [hidle]; decide)) hidle
  · obtain ⟨c', r, hr, ho⟩ := hw.owe q (hcom q hq) (hdata ▸ hcond)
    exact ⟨c', r, hback hr, hpc ▸ ho⟩
  · rw [hpc] at hlt
    refine hw.woken c' r (hold hr fun hout => ?_) q hlt (hcom q hq)
    rw [Pc.reach_out hout] at hlt
    exact absurd hlt (Nat.not_lt_zero _)

omit [Fintype Λ] in
theorem Wake.tick (hw : Wake code l x stand cond σ) (hrun : (σ.cpu c).run = some p) (hfree : σ.free c none) :
    Wake code l x stand cond { σ with pc := Function.update σ.pc p (.yield1 (σ.pc p)) } := by
  have hguard := hw.guarded.tick (p := p) fun k => Iff.rfl
  have hout : (σ.pc p).sec l x stand = .out := by
    by_contra hne
    exact hfree.1 _ ((hw.hold c p hrun).mp hne)
  have hsec : ∀ q, (Function.update σ.pc p (.yield1 (σ.pc p)) q).sec l x stand = (σ.pc q).sec l x stand := fun q => by
    by_cases hq : q = p
    · rw [hq, Function.update_self]
      rfl
    · rw [Function.update_of_ne hq]
  have hreach : ∀ q, (Function.update σ.pc p (.yield1 (σ.pc p)) q).reach l x stand = (σ.pc q).reach l x stand := fun q => by
    by_cases hq : q = p
    · rw [hq, Function.update_self, Pc.reach_out hout]
      exact Pc.reach_out (show (Pc.yield1 (σ.pc p)).sec l x stand = .out from hout)
    · rw [Function.update_of_ne hq]
  have hcom : ∀ q, State.Committed l x { σ with pc := Function.update σ.pc p (.yield1 (σ.pc p)) } q →
      σ.Committed l x q := fun q hq => by
    unfold State.Committed at hq ⊢
    by_cases hqp : q = p
    · simp only [hqp, Function.update_self] at hq
      rcases hq with ⟨k, hk⟩ | ⟨-, k, hk⟩ <;> cases hk
    · simpa only [Function.update_of_ne hqp] using hq
  refine ⟨fun q => ?_, hguard.hold, hguard.held, fun q hq => not_not.mp (hguard.off q hq), fun c' q hq hidle => ?_,
    fun q hq hc => ?_, fun c' r hr q hlt hq => ?_⟩
  · by_cases hq : q = p
    · subst hq
      simp only [Function.update_self]
      exact ⟨hw.good q, hout⟩
    · simp only [Function.update_of_ne hq]
      exact hw.good q
  · simp only [hsec] at hidle
    exact hw.idle c' q hq hidle
  · obtain ⟨c', r, hr, ho⟩ := hw.owe q (hcom q hq) hc
    exact ⟨c', r, hr, by simpa only [Pc.Owes, hsec, hreach] using ho⟩
  · simp only [hreach] at hlt
    exact hw.woken c' r hr q hlt (hcom q hq)

omit [Fintype Λ] in
theorem Honest.attentive (hh : Honest code cond stand) (hw : Wake code l x stand cond σ) (n : ℕ) :
    Attentive code cond stand σ p n where
  act := fun _ _ _ _ _ hk hf => hh.act hk hf
  killed := fun yes no hpc _ => by
    have hgood := hw.good p
    rw [hpc] at hgood
    obtain ⟨k, hk⟩ := hgood
    exact hh.killed hk

theorem Wake.step (hd : Discipline code l x cond stand) (hi : Inv σ) (hw : Wake code l x stand cond σ) {a : Act}
    (ha : ∀ c n p, a = .step c n → (σ.cpu c).run = some p → Attentive code cond stand σ p n)
    (hs : step code a σ = .ok σ') : Wake code l x stand cond σ' := by
  rcases step_cases hs with ⟨c, n, rfl, hr, hs⟩ | ⟨c, n, p, m, rfl, hr, hn, hs⟩ | ⟨c, p, -, hr, hf, rfl⟩
  · exact hw.scheduler hi hr hs
  · exact hw.move hi hr (next_ok hi hr hn) hs
      (next_turn hd hi hw hr hn hs (ha c n p rfl hr))
  · exact hw.tick hr hf

omit [Fintype Λ] in
theorem boot_wake (d : D) {k : C} (hk : stand k = .out) : Wake code l x stand cond (boot d k : State D Λ X C) := by
  refine ⟨fun q => hk, nofun, nofun, fun q _ => hk, nofun, fun q hq => ?_, nofun⟩
  rcases hq with ⟨k', hk'⟩ | ⟨-, k', hk'⟩ <;> cases hk'

theorem run_wake (hd : Discipline code l x cond stand) {P : State D Λ X C → Act → Prop}
    (hP : ∀ σ c n p, Wake code l x stand cond σ → P σ (.step c n) → (σ.cpu c).run = some p →
      Attentive code cond stand σ p n) {d : D} {k : C} (hk : stand k = .out) {as : List Act} {u : State D Λ X C}
    (h : Run (Proc.step code) P (boot d k) as u) : Inv u ∧ Wake code l x stand cond u :=
  h.inv (I := fun u => Inv u ∧ Wake code l x stand cond u) ⟨boot_inv d k, boot_wake d hk⟩
    fun t _ _ ht hp hs => ⟨ht.1.step hs, ht.2.step hd ht.1 (fun c n p ha => hP t c n p ht.2 (ha ▸ hp)) hs⟩

omit [Fintype Λ] in
/-- While the lock is free, nobody sleeps on the channel with the condition true. -/
theorem Wake.none_lost (hi : Inv σ) (hw : Wake code l x stand cond σ) (hfree : σ.lock (.user l) = none)
    (hc : cond σ.data) (hsl : (σ.proc p).state = .sleeping) :
    (σ.proc p).chan ≠ some (.user x) := fun hch => by
  have hf := hi.fits p
  unfold State.Fits at hf
  rw [hsl] at hf
  obtain ⟨-, s, hs, hch'⟩ := hf
  rw [hch] at hch'
  have hgood := hw.good p
  rw [hs] at hgood
  cases s with
  | wait k => cases hch'
  | user y l' k =>
    obtain rfl : x = y := by cases hch'; rfl
    obtain rfl := hgood.2 rfl
    obtain ⟨c, r, hr, ho⟩ := hw.owe p (Or.inr ⟨hsl, k, hs⟩) hc
    have := (hw.hold c r hr).mp (by rw [ho.1]; decide)
    rw [hfree] at this
    cases this

end Runs

end Xv6.Proc
