import Xv6.Spec.Proc

/-! Which process locks a CPU holds is a function of where it is, and what a process
may be is a function of its state. This is the invariant that everything about the
process table rests on. -/

namespace Xv6.Proc

open Machine

variable {D Λ X C : Type}

/-- The process lock held by process `p` where it is. -/
def Pc.holds (p : Slot) : Pc Λ X C → Option Slot
  | .sleep2 _ | .sleep3 _ | .sleep4 _ | .yield2 _ | .yield3 _ | .forkret _ | .killed2 _ | .setkilled2 _
  | .exit4 _ | .exit5 | .dead => some p
  | .wakeup2 _ q | .kill2 _ _ q | .fork2 _ _ q | .fork3 _ q | .fork7 _ q _ | .wait3 _ q => some q
  | _ => none

/-- The child a process in `kfork` is making. -/
def Pc.child : Pc Λ X C → Option Slot
  | .fork3 _ np | .fork4 _ np _ | .fork5 _ np _ | .fork6 _ np _ | .fork7 _ np _ => some np
  | .yield1 k | .yield2 k | .yield3 k => k.child
  | _ => none

/-- Where a process that is on no CPU goes on when it is started. -/
def Pc.Rest : Pc Λ X C → Prop
  | .sleep4 _ | .yield3 _ | .forkret _ | .dead => True
  | _ => False

theorem Pc.Rest.holds {k : Pc Λ X C} (h : k.Rest) (p : Slot) : k.holds p = some p := by
  cases k with
  | sleep4 s | yield3 k | forkret k | dead => rfl
  | _ => exact h.elim

/-- A process that yields holds no process lock where it goes on. -/
def Pc.Calm (p : Slot) : Pc Λ X C → Prop
  | .yield1 k | .yield2 k | .yield3 k => k.holds p = none ∧ k.Calm p
  | _ => True

/-- The process lock held in the scheduler. -/
def SPc.holds : SPc → Option Slot
  | .scan _ => none
  | .check q | .back q => some q

/-- The process lock CPU `c` holds. -/
def State.holds (σ : State D Λ X C) (c : CpuId) : Option Slot :=
  match (σ.cpu c).run with
  | some p => (σ.pc p).holds p
  | none => (σ.cpu c).spc.holds

/-- No CPU is on the kernel stack of `p`. -/
def State.Off (σ : State D Λ X C) (p : Slot) : Prop := ∀ c, (σ.cpu c).run ≠ some p

/-- What the state of a process says about where it is. -/
def State.Fits (σ : State D Λ X C) (p : Slot) : Prop :=
  match (σ.proc p).state with
  | .unused | .used => σ.Off p
  | .sleeping => σ.Off p ∧ ∃ s, σ.pc p = .sleep4 s ∧ (σ.proc p).chan = some (s.chan p)
  | .runnable => σ.Off p
  | .running => ∃ c, (σ.cpu c).run = some p
  | .zombie => ∀ c, (σ.cpu c).run = some p → σ.pc p = .exit5

structure Inv (σ : State D Λ X C) : Prop where
  plock : ∀ c q, σ.plock q = some c ↔ σ.holds c = some q
  proc : ∀ c p, (σ.cpu c).proc = some p ↔ (σ.cpu c).spc = .back p
  stack : ∀ c p, (σ.cpu c).run = some p → (σ.cpu c).spc = .back p
  one : ∀ c c' p, (σ.cpu c).run = some p → (σ.cpu c').run = some p → c = c'
  fits : ∀ p, σ.Fits p
  rest : ∀ p, σ.Off p → (σ.pc p).Rest
  child : ∀ p np, (σ.pc p).child = some np → (σ.proc np).state = .used
  apart : ∀ p p' np, (σ.pc p).child = some np → (σ.pc p').child = some np → p = p'
  calm : ∀ p, (σ.pc p).Calm p
  ended : ∀ p, σ.pc p = .exit5 → (σ.proc p).state = .zombie ∧ ¬ σ.Off p

section Locks

variable {L : Type} [DecidableEq L] {c : CpuId} {lk lk' : L → Option CpuId} {l : L}

theorem LockOp.run_keep (h : (LockOp.keep : LockOp L).run c lk = .ok lk') : lk' = lk := by
  simpa [LockOp.run, eq_comm] using h

theorem LockOp.run_take (h : (LockOp.take l).run c lk = .ok lk') :
    lk l = none ∧ lk' = Function.update lk l (some c) := by
  simp only [LockOp.run] at h
  cases hl : lk l with
  | none => simpa [hl, eq_comm] using h
  | some c' =>
    simp only [hl] at h
    split_ifs at h

theorem LockOp.run_drop (h : (LockOp.drop l).run c lk = .ok lk') :
    lk l = some c ∧ lk' = Function.update lk l none := by
  simp only [LockOp.run] at h
  split_ifs at h with hl
  exact ⟨hl, by simpa [eq_comm] using h⟩

/-- Nobody else's locks are touched. -/
theorem LockOp.run_other {op : LockOp L} (h : op.run c lk = .ok lk') {c' : CpuId} (hc : c' ≠ c) :
    lk' l = some c' ↔ lk l = some c' := by
  cases op with
  | keep => rw [LockOp.run_keep h]
  | take l0 =>
    obtain ⟨hnone, rfl⟩ := LockOp.run_take h
    by_cases hl : l = l0
    · rw [hl, Function.update_self, hnone]
      simp [Ne.symm hc]
    · rw [Function.update_of_ne hl]
  | drop l0 =>
    obtain ⟨hsome, rfl⟩ := LockOp.run_drop h
    by_cases hl : l = l0
    · rw [hl, Function.update_self, hsome]
      simp [Ne.symm hc]
    · rw [Function.update_of_ne hl]

/-- The operation takes a holder of `old` to a holder of `new`. -/
def LockOp.Shift (op : LockOp L) (old new : Option L) : Prop :=
  match op with
  | .keep => new = old
  | .take l => old = none ∧ new = some l
  | .drop l => old = some l ∧ new = none

theorem LockOp.Shift.run {op : LockOp L} {old new : Option L} (hs : op.Shift old new) (h : op.run c lk = .ok lk')
    (hold : ∀ l, lk l = some c ↔ old = some l) (l : L) : lk' l = some c ↔ new = some l := by
  cases op with
  | keep =>
    have hn : new = old := hs
    rw [LockOp.run_keep h, hn]
    exact hold l
  | take l0 =>
    obtain ⟨ho, hn⟩ := hs
    obtain ⟨-, rfl⟩ := LockOp.run_take h
    by_cases hl : l = l0
    · rw [hl, Function.update_self, hn]
      simp
    · rw [Function.update_of_ne hl, hold, ho, hn]
      simp [Ne.symm hl]
  | drop l0 =>
    obtain ⟨ho, hn⟩ := hs
    obtain ⟨-, rfl⟩ := LockOp.run_drop h
    by_cases hl : l = l0
    · rw [hl, Function.update_self, hn]
      simp
    · rw [Function.update_of_ne hl, hold, ho, hn]
      simp [Ne.symm hl]

end Locks

section Moves

variable {m : Move D Λ X C} {σ σ' : State D Λ X C} {c : CpuId} {p q : Slot} {plock : Slot → Option CpuId}
  {lock : Lock Λ → Option CpuId}

theorem Move.apply_ok [DecidableEq Λ] [Fintype Λ] (h : m.apply σ c p = .ok σ') : ∃ plock lock, m.plock.run c σ.plock = .ok plock ∧
    m.lock.run c σ.lock = .ok lock ∧ (m.off = true → σ.free c (some p)) ∧ σ' = m.result σ c p plock lock := by
  unfold Move.apply at h
  cases h1 : m.plock.run c σ.plock with
  | ok plock =>
    cases h2 : m.lock.run c σ.lock with
    | ok lock =>
      simp only [h1, h2] at h
      split_ifs at h with hoff
      refine ⟨plock, lock, rfl, rfl, fun ho => ?_, by simpa [eq_comm] using h⟩
      by_contra hf
      exact hoff ⟨ho, hf⟩
    | blocked => simp [h1, h2] at h
    | panic msg => simp [h1, h2] at h
  | blocked => cases h2 : m.lock.run c σ.lock <;> simp [h1, h2] at h
  | panic msg => simp [h1] at h

/-- What a process may do to the entry of a process. -/
inductive Change (σ : State D Λ X C) (p : Slot) (m : Move D Λ X C) (q : Slot) (e : PEntry X) : Prop
  -- nothing to its state
  | keep (hs : e.state = (σ.proc q).state) (hc : e.chan = (σ.proc q).chan ∨ q = p) (hoff : m.off = false)
  | wake (hs : (σ.proc q).state = .sleeping) (he : e.state = .runnable) (hoff : m.off = false)
  | alloc (hs : (σ.proc q).state = .unused) (he : e.state = .used) (hoff : m.off = false)
      (hpc : ∃ k, m.spawn = some (q, .forkret k))
  | free (hs : (σ.proc q).state = .zombie ∨ (σ.pc p).child = some q) (hq : σ.Off q) (he : e.state = .unused)
      (hoff : m.off = false) (hpc : m.pc.child = none)
  | start (hs : (σ.pc p).child = some q) (he : e.state = .runnable) (hoff : m.off = false) (hpc : m.pc.child = none)
  | sleep (hq : q = p) (he : e.state = .sleeping) (hoff : m.off = true)
      (hpc : ∃ s, m.pc = .sleep4 s ∧ e.chan = some (s.chan p))
  | yield (hq : q = p) (he : e.state = .runnable) (hoff : m.off = true)
  | exit (hq : q = p) (he : e.state = .zombie) (hoff : m.off = false) (hpc : m.pc = .exit5)

/-- The entry of `q` after the move. -/
def Move.entry (m : Move D Λ X C) (σ : State D Λ X C) (q : Slot) : PEntry X :=
  match m.put with
  | some (r, e) => if q = r then e else σ.proc q
  | none => σ.proc q

/-- What the moves of a process have in common. -/
structure Move.Ok (m : Move D Λ X C) (σ : State D Λ X C) (p : Slot) : Prop where
  holds : m.off = false → m.plock.Shift ((σ.pc p).holds p) (m.pc.holds p)
  off : m.off = true → m.plock = .keep ∧ (σ.pc p).holds p = some p ∧ m.pc.Rest
  put : ∀ q e, m.put = some (q, e) → Change σ p m q e
  spawn : ∀ q k, m.spawn = some (q, k) → (σ.proc q).state = .unused ∧ ∃ k', k = .forkret k'
  child : m.pc.child = none ∨ m.pc.child = (σ.pc p).child ∨
    ∃ q k, m.spawn = some (q, .forkret k) ∧ m.pc.child = some q ∧ (m.entry σ q).state = .used
  last : m.off = true → m.put = none → (σ.proc p).state = .zombie
  ended : m.pc = .exit5 → m.off = false ∧ (m.entry σ p).state = .zombie
  alive : m.off = false → σ.pc p ≠ .exit5
  calm : m.pc.Calm p

theorem Move.result_proc : (m.result σ c p plock lock).proc q = m.entry σ q := by
  unfold Move.result Move.entry
  cases hput : m.put with
  | none => rfl
  | some r =>
    obtain ⟨r, e⟩ := r
    simp only [Function.update_apply]

theorem Move.result_run (c' : CpuId) :
    ((m.result σ c p plock lock).cpu c').run = if m.off = true ∧ c' = c then none else (σ.cpu c').run := by
  unfold Move.result
  by_cases hoff : m.off = true
  · simp only [hoff, if_true, true_and]
    by_cases hc : c' = c
    · rw [hc, Function.update_self, if_pos rfl]
    · rw [Function.update_of_ne hc, if_neg hc]
  · rw [if_neg hoff, if_neg fun h => hoff h.1]

theorem Move.result_spc (c' : CpuId) :
    ((m.result σ c p plock lock).cpu c').spc = (σ.cpu c').spc ∧
    ((m.result σ c p plock lock).cpu c').proc = (σ.cpu c').proc := by
  unfold Move.result
  by_cases hoff : m.off = true
  · simp only [hoff, if_true]
    by_cases hc : c' = c
    · rw [hc, Function.update_self]
      exact ⟨rfl, rfl⟩
    · rw [Function.update_of_ne hc]
      exact ⟨rfl, rfl⟩
  · rw [if_neg hoff]
    exact ⟨rfl, rfl⟩

theorem Move.result_pc_self : (m.result σ c p plock lock).pc p = m.pc := by
  unfold Move.result
  cases m.spawn with
  | none => exact Function.update_self _ _ _
  | some r => exact Function.update_self _ _ _

theorem Move.result_pc_ne (hq : q ≠ p)
    (hs : ∀ k, m.spawn ≠ some (q, k)) : (m.result σ c p plock lock).pc q = σ.pc q := by
  unfold Move.result
  cases hm : m.spawn with
  | none => exact Function.update_of_ne hq _ _
  | some r =>
    obtain ⟨r, k⟩ := r
    have hr : q ≠ r := fun he => hs k (by rw [hm, he])
    simp only [Function.update_of_ne hq, Function.update_of_ne hr]

theorem Move.result_pc_spawn (hq : q ≠ p)
    {k : Pc Λ X C} (hs : m.spawn = some (q, k)) : (m.result σ c p plock lock).pc q = k := by
  unfold Move.result
  simp only [hs, Function.update_of_ne hq, Function.update_self]

/-- A process that does not move is where it was, or at its start if it is new. -/
theorem Move.result_pc {P : Pc Λ X C → Prop} (hq : q ≠ p) (hold : P (σ.pc q)) (hnew : ∀ k, m.spawn = some (q, k) → P k) :
    P ((m.result σ c p plock lock).pc q) := by
  by_cases hsp : ∃ k, m.spawn = some (q, k)
  · obtain ⟨k, hk⟩ := hsp
    rw [Move.result_pc_spawn hq hk]
    exact hnew k hk
  · rw [Move.result_pc_ne hq fun k hk => hsp ⟨k, hk⟩]
    exact hold

/-- In these states no CPU is on the stack of the process. -/
theorem Inv.off (h : Inv σ) {st : PState} (hst : (σ.proc p).state = st) (hr : st ≠ .running) (hz : st ≠ .zombie) :
    σ.Off p := by
  have hf := h.fits p
  unfold State.Fits at hf
  rw [hst] at hf
  cases st with
  | running => exact absurd rfl hr
  | zombie => exact absurd rfl hz
  | sleeping => exact hf.1
  | unused | used | runnable => exact hf

/-- A process that runs is `RUNNING`, until `kexit` has marked it. -/
theorem Inv.running (h : Inv σ) (hrun : (σ.cpu c).run = some p) (hpc : σ.pc p ≠ .exit5) :
    (σ.proc p).state = .running := by
  by_contra hr
  by_cases hz : (σ.proc p).state = .zombie
  · have hf := h.fits p
    unfold State.Fits at hf
    rw [hz] at hf
    exact hpc (hf c hrun)
  · exact h.off rfl hr hz c hrun

section Result

variable (h : Inv σ) (hrun : (σ.cpu c).run = some p) (hm : m.Ok σ p)

/-- Nobody gets on a stack by a move. -/
theorem Move.run_of_result {c' : CpuId} (hq : ((m.result σ c p plock lock).cpu c').run = some q) :
    (σ.cpu c').run = some q ∧ ¬ (m.off = true ∧ c' = c) := by
  rw [Move.result_run] at hq
  split_ifs at hq with hc
  exact ⟨hq, hc⟩

/-- Only the process that moves leaves its CPU. -/
theorem Move.run_result (hrun : (σ.cpu c).run = some p) {c' : CpuId} (hqp : m.off = true → q ≠ p)
    (hq : (σ.cpu c').run = some q) : ((m.result σ c p plock lock).cpu c').run = some q := by
  rw [Move.result_run, if_neg, hq]
  rintro ⟨hoff, rfl⟩
  rw [hrun] at hq
  exact hqp hoff (Option.some.inj hq).symm

theorem Move.result_off (hq : σ.Off q) : (m.result σ c p plock lock).Off q :=
  fun c' hc' => hq c' (Move.run_of_result hc').1

include h hrun hm

omit hrun in
theorem Inv.spawn_off {k : Pc Λ X C} (hq : m.spawn = some (q, k)) : σ.Off q :=
  h.off (hm.spawn q k hq).1 nofun nofun

omit h hm in
theorem off_ne (hq : σ.Off q) : q ≠ p := fun he => hq c (he ▸ hrun)

omit hm in
theorem Inv.result_holds : (m.result σ c p plock lock).holds c = if m.off = true then some p else m.pc.holds p := by
  unfold State.holds
  rw [Move.result_run, (Move.result_spc c).1, h.stack c p hrun]
  split_ifs with hx hoff hoff
  · rfl
  · exact absurd hx.1 hoff
  · exact absurd ⟨hoff, rfl⟩ hx
  · rw [hrun]
    simp only [Move.result_pc_self]

theorem Inv.result_holds_ne {c' : CpuId} (hc : c' ≠ c) : (m.result σ c p plock lock).holds c' = σ.holds c' := by
  unfold State.holds
  rw [Move.result_run, if_neg fun hx => hc hx.2, (Move.result_spc c').1]
  cases hr : (σ.cpu c').run with
  | none => rfl
  | some p' =>
    have hp' : p' ≠ p := fun he => hc (h.one c' c p (he ▸ hr) hrun)
    simp only
    rw [Move.result_pc_ne hp' fun k hk => h.spawn_off hm hk c' hr]

theorem Inv.result_plock (hpl : m.plock.run c σ.plock = .ok plock) (c' : CpuId) :
    plock q = some c' ↔ (m.result σ c p plock lock).holds c' = some q := by
  by_cases hc : c' = c
  · subst hc
    have hold : ∀ l, σ.plock l = some c' ↔ (σ.pc p).holds p = some l := fun l => by
      rw [h.plock, State.holds, hrun]
    rw [h.result_holds hrun]
    split_ifs with hoff
    · obtain ⟨hk, hp, -⟩ := hm.off hoff
      rw [hk] at hpl
      rw [LockOp.run_keep hpl, hold, hp]
    · exact (hm.holds (Bool.not_eq_true _ ▸ hoff)).run hpl hold q
  · rw [h.result_holds_ne hrun hm hc, ← h.plock]
    exact LockOp.run_other hpl hc

omit h in
/-- A slot whose process is not the one that moves, nor a new one, is where it was. -/
theorem Move.Ok.result_pc_off (hq : σ.Off q) (hs : (σ.proc q).state ≠ .unused) :
    (m.result σ c p plock lock).pc q = σ.pc q :=
  Move.result_pc_ne (off_ne hrun hq) fun k hk => hs (hm.spawn q k hk).1

omit h hrun in
theorem Move.Ok.result_pc {P : Pc Λ X C → Prop} (hq : q ≠ p) (hold : P (σ.pc q)) (hnew : ∀ k, P (.forkret k)) :
    P ((m.result σ c p plock lock).pc q) := by
  refine Move.result_pc hq hold fun k hk => ?_
  obtain ⟨-, k', rfl⟩ := hm.spawn q k hk
  exact hnew k'

omit hm in
/-- The process that leaves its CPU is on none. -/
theorem Inv.result_self_off (hoff : m.off = true) : (m.result σ c p plock lock).Off p := fun c' hc' => by
  obtain ⟨hq, hx⟩ := Move.run_of_result hc'
  exact hx ⟨hoff, h.one c' c p hq hrun⟩

/-- An entry whose state and channel are as before. -/
theorem Inv.result_same (hst : (m.entry σ q).state = (σ.proc q).state)
    (hch : (m.entry σ q).chan = (σ.proc q).chan ∨ q = p) (hqp : m.off = true → q ≠ p) :
    (m.result σ c p plock lock).Fits q := by
  have hf := h.fits q
  unfold State.Fits at hf ⊢
  rw [Move.result_proc, hst]
  cases hsq : (σ.proc q).state with
  | unused | used | runnable =>
    rw [hsq] at hf
    exact Move.result_off hf
  | sleeping =>
    rw [hsq] at hf
    obtain ⟨hq, s, hs, hch'⟩ := hf
    refine ⟨Move.result_off hq, s, ?_, ?_⟩
    · rw [hm.result_pc_off hrun hq (by rw [hsq]; decide), hs]
    · rw [hch.resolve_right (off_ne hrun hq), hch']
  | running =>
    rw [hsq] at hf
    obtain ⟨c', hc'⟩ := hf
    exact ⟨c', Move.run_result hrun hqp hc'⟩
  | zombie =>
    rw [hsq] at hf
    intro c' hc'
    obtain ⟨hc0, hx⟩ := Move.run_of_result hc'
    by_cases hq : q = p
    · subst hq
      have hoff : m.off = false := by
        rw [← Bool.not_eq_true]
        exact fun ho => hx ⟨ho, h.one c' c q hc0 hrun⟩
      exact absurd (hf c hrun) (hm.alive hoff)
    · rw [Move.result_pc_ne hq fun k hk => h.spawn_off hm hk c' hc0]
      exact hf c' hc0

/-- An entry that is written. -/
theorem Inv.result_put {e : PEntry X} (hput : m.put = some (q, e)) : (m.result σ c p plock lock).Fits q := by
  have hentry : m.entry σ q = e := by
    unfold Move.entry
    simp only [hput, if_true]
  have hstate : ((m.result σ c p plock lock).proc q) = e := by rw [Move.result_proc, hentry]
  cases hm.put q e hput with
  | keep hs hc hoff =>
    refine h.result_same hrun hm (by rw [hentry, hs]) (by rw [hentry]; exact hc) fun ho => ?_
    rw [hoff] at ho
    cases ho
  | wake hs he hoff =>
    have hf := h.fits q
    unfold State.Fits at hf ⊢
    rw [hs] at hf
    rw [hstate, he]
    exact Move.result_off hf.1
  | alloc hs he hoff hk =>
    unfold State.Fits
    rw [hstate, he]
    exact Move.result_off (h.off hs nofun nofun)
  | free hs hq he hoff hk =>
    unfold State.Fits
    rw [hstate, he]
    exact Move.result_off hq
  | start hs he hoff hk =>
    have hu := h.child p q hs
    unfold State.Fits
    rw [hstate, he]
    exact Move.result_off (h.off hu nofun nofun)
  | sleep hq he hoff hk =>
    subst hq
    obtain ⟨s, hs, hch⟩ := hk
    unfold State.Fits
    rw [hstate, he]
    exact ⟨h.result_self_off hrun hoff, s, by rw [Move.result_pc_self, hs], hch⟩
  | yield hq he hoff =>
    subst hq
    unfold State.Fits
    rw [hstate, he]
    exact h.result_self_off hrun hoff
  | exit hq he hoff hk =>
    subst hq
    unfold State.Fits
    rw [hstate, he]
    intro c' _
    rw [Move.result_pc_self, hk]

omit h hrun in
/-- A process that leaves its CPU without a change of its entry has come to its end. -/
theorem Move.Ok.put_none (hoff : m.off = true) (hput : ∀ e, m.put ≠ some (p, e)) : m.put = none := by
  cases hp : m.put with
  | none => rfl
  | some r =>
    obtain ⟨r, e⟩ := r
    have hr : r = p := by
      cases hm.put r e hp with
      | sleep hq => exact hq
      | yield hq => exact hq
      | keep _ _ ho | wake _ _ ho | alloc _ _ ho | free _ _ _ ho | start _ _ ho | exit _ _ ho =>
        rw [hoff] at ho
        cases ho
    exact absurd (hr ▸ hp) (hput e)

theorem Inv.result_fits : (m.result σ c p plock lock).Fits q := by
  by_cases hput : ∃ e, m.put = some (q, e)
  · obtain ⟨e, hput⟩ := hput
    exact h.result_put hrun hm hput
  · have hentry : m.entry σ q = σ.proc q := by
      unfold Move.entry
      cases hp : m.put with
      | none => rfl
      | some r =>
        obtain ⟨r, e⟩ := r
        simp only
        rw [if_neg]
        rintro rfl
        exact hput ⟨e, hp⟩
    by_cases hqp : m.off = true ∧ q = p
    · obtain ⟨hoff, rfl⟩ := hqp
      have hnone := hm.put_none hoff fun e he => hput ⟨e, he⟩
      unfold State.Fits
      rw [Move.result_proc, hentry, hm.last hoff hnone]
      exact fun c' hc' => absurd hc' (h.result_self_off hrun hoff c')
    · exact h.result_same hrun hm (by rw [hentry]) (Or.inl (by rw [hentry])) fun ho he => hqp ⟨ho, he⟩

theorem Inv.result_rest (hq : (m.result σ c p plock lock).Off q) : ((m.result σ c p plock lock).pc q).Rest := by
  by_cases hqp : q = p
  · subst hqp
    rw [Move.result_pc_self]
    refine (hm.off ?_).2.2
    by_contra hoff
    exact hq c (Move.run_result hrun (fun ho => absurd ho hoff) hrun)
  · exact hm.result_pc hqp (h.rest q fun c' hc' => hq c' (Move.run_result hrun (fun _ => hqp) hc')) fun _ => trivial

omit h hrun in
/-- An entry is as it was, or what the move writes. -/
theorem Move.Ok.entry_of {P : PEntry X → Prop} (hold : P (σ.proc q)) (hput : ∀ e, Change σ p m q e → P e) :
    P (m.entry σ q) := by
  unfold Move.entry
  cases hp : m.put with
  | none => exact hold
  | some r =>
    obtain ⟨r, e⟩ := r
    simp only
    split_ifs with hr
    · subst hr
      exact hput e (hm.put q e hp)
    · exact hold

omit h hrun in
/-- A process that is `USED` or a zombie changes its state only when it is freed or started. -/
theorem Move.Ok.entry_state (hq : q ≠ p) (hsl : (σ.proc q).state ≠ .sleeping) (hun : (σ.proc q).state ≠ .unused)
    (hz : (σ.proc q).state = .zombie → ¬ σ.Off q) (hmake : (σ.pc p).child = some q → m.pc.child ≠ none) :
    (m.entry σ q).state = (σ.proc q).state := by
  refine hm.entry_of (P := fun e => e.state = (σ.proc q).state) rfl fun e he => ?_
  cases he with
  | keep hs => exact hs
  | wake hs => exact absurd hs hsl
  | alloc hs => exact absurd hs hun
  | free hs ho _ _ hpc => exact hs.elim (fun hs => absurd ho (hz hs)) fun hs => absurd hpc (hmake hs)
  | start hs _ _ hpc => exact absurd hpc (hmake hs)
  | sleep hs | yield hs | exit hs => exact absurd hs hq

/-- A child stays as it is unless the process that is making it lets go of it. -/
theorem Inv.result_used {p' np : Slot} (hc : (σ.pc p').child = some np)
    (hmake : (σ.pc p).child = some np → m.pc.child ≠ none) :
    ((m.result σ c p plock lock).proc np).state = .used := by
  have hu := h.child p' np hc
  have hne := off_ne hrun (h.off hu nofun nofun)
  rw [Move.result_proc, hm.entry_state hne (by rw [hu]; exact nofun) (by rw [hu]; exact nofun)
    (by rw [hu]; exact nofun) hmake, hu]

omit h hrun in
/-- A process that does not move makes the child it made before. -/
theorem Move.Ok.old_child {p' np : Slot} (hp' : p' ≠ p)
    (hc : ((m.result σ c p plock lock).pc p').child = some np) : (σ.pc p').child = some np := by
  revert hc
  exact hm.result_pc (P := fun k => k.child = some np → (σ.pc p').child = some np) hp' id nofun

theorem Inv.result_child {p' np : Slot} (hc : ((m.result σ c p plock lock).pc p').child = some np) :
    ((m.result σ c p plock lock).proc np).state = .used := by
  by_cases hp' : p' = p
  · rw [hp', Move.result_pc_self] at hc
    rcases hm.child with hno | hsame | ⟨q, k, hsp, hq, hu⟩
    · rw [hno] at hc
      cases hc
    · rw [hsame] at hc
      exact h.result_used hrun hm hc fun _ => by rw [hsame, hc]; exact nofun
    · have hqn : q = np := Option.some.inj (hq.symm.trans hc)
      subst hqn
      rw [Move.result_proc]
      exact hu
  · have hold := hm.old_child hp' hc
    exact h.result_used hrun hm hold fun hs => absurd (h.apart p' p np hold hs) hp'

omit hrun in
/-- The child of a process that does not move is not the one that moves is making. -/
theorem Inv.result_apart {p' np : Slot} (hp' : p' ≠ p)
    (hc : ((m.result σ c p plock lock).pc p').child = some np) (hcp : m.pc.child = some np) : False := by
  have hold := hm.old_child hp' hc
  rcases hm.child with hno | hsame | ⟨q, k, hsp, hq, -⟩
  · rw [hno] at hcp
    cases hcp
  · exact hp' (h.apart p' p np hold (hsame ▸ hcp))
  · have hqn : q = np := Option.some.inj (hq.symm.trans hcp)
    have hu := h.child p' np hold
    rw [← hqn, (hm.spawn q _ hsp).1] at hu
    cases hu

theorem Inv.result_ended (hq : (m.result σ c p plock lock).pc q = .exit5) :
    ((m.result σ c p plock lock).proc q).state = .zombie ∧ ¬ (m.result σ c p plock lock).Off q := by
  rw [Move.result_proc]
  by_cases hqp : q = p
  · subst hqp
    rw [Move.result_pc_self] at hq
    obtain ⟨hoff, hz⟩ := hm.ended hq
    exact ⟨hz, fun ho => ho c (Move.run_result hrun (fun hon => by rw [hoff] at hon; cases hon) hrun)⟩
  · have hold : σ.pc q = .exit5 := by
      revert hq
      exact hm.result_pc (P := fun k => k = .exit5 → σ.pc q = .exit5) hqp id nofun
    obtain ⟨hz, hon⟩ := h.ended q hold
    refine ⟨?_, fun ho => hon fun c' hc' => ho c' (Move.run_result hrun (fun _ => hqp) hc')⟩
    rw [hm.entry_state hqp (by rw [hz]; exact nofun) (by rw [hz]; exact nofun) (fun _ => hon) fun hs => ?_, hz]
    rw [h.child p q hs] at hz
    cases hz

end Result

/-- A move of the process on CPU `c` keeps the invariant. -/
theorem Inv.move [DecidableEq Λ] [Fintype Λ] (h : Inv σ) (hrun : (σ.cpu c).run = some p) (hm : m.Ok σ p)
    (hs : m.apply σ c p = .ok σ') : Inv σ' := by
  obtain ⟨plock, lock, hpl, -, -, rfl⟩ := Move.apply_ok hs
  refine ⟨fun c' q => h.result_plock hrun hm hpl c', fun c' q => ?_, fun c' q hq => ?_, fun c1 c2 q h1 h2 => ?_,
    fun q => h.result_fits hrun hm, fun q hq => h.result_rest hrun hm hq, fun p' np hc => h.result_child hrun hm hc, fun p1 p2 np h1 h2 => ?_, fun q => ?_,
    fun q hq => h.result_ended hrun hm hq⟩
  · rw [(Move.result_spc c').1, (Move.result_spc c').2]
    exact h.proc c' q
  · rw [(Move.result_spc c').1]
    exact h.stack c' q (Move.run_of_result hq).1
  · exact h.one c1 c2 q (Move.run_of_result h1).1 (Move.run_of_result h2).1
  · by_cases hp1 : p1 = p
    · by_cases hp2 : p2 = p
      · rw [hp1, hp2]
      · rw [hp1, Move.result_pc_self] at h1
        exact (h.result_apart hm hp2 h2 h1).elim
    · by_cases hp2 : p2 = p
      · rw [hp2, Move.result_pc_self] at h2
        exact (h.result_apart hm hp1 h1 h2).elim
      · exact h.apart p1 p2 np (hm.old_child hp1 h1) (hm.old_child hp2 h2)
  · by_cases hq : q = p
    · rw [hq, Move.result_pc_self]
      exact hm.calm
    · exact hm.result_pc (P := Pc.Calm q) hq (h.calm q) fun _ => trivial

/-- A move that writes no entry. -/
theorem Move.Ok.plain {k : Pc Λ X C} (hpc : σ.pc p = k) (hholds : m.plock.Shift (k.holds p) (m.pc.holds p))
    (hput : m.put = none) (hspawn : m.spawn = none) (hoff : m.off = false)
    (hchild : m.pc.child = none ∨ m.pc.child = k.child) (halive : k ≠ .exit5) (hcalm : m.pc.Calm p)
    (hend : m.pc ≠ .exit5) : m.Ok σ p where
  calm := hcalm
  ended := fun he => absurd he hend
  holds := fun _ => by rw [hpc]; exact hholds
  off := fun ho => by rw [hoff] at ho; cases ho
  put := fun q e he => by rw [hput] at he; cases he
  spawn := fun q k hk => by rw [hspawn] at hk; cases hk
  child := by rw [hpc]; exact hchild.imp_right Or.inl
  last := fun ho => by rw [hoff] at ho; cases ho
  alive := fun _ => by rw [hpc]; exact halive

/-- A move that writes the entry of `q`. -/
theorem Move.Ok.write {k : Pc Λ X C} {e : PEntry X} (hpc : σ.pc p = k)
    (hholds : m.plock.Shift (k.holds p) (m.pc.holds p)) (hput : m.put = some (q, e)) (hchange : Change σ p m q e)
    (hspawn : m.spawn = none) (hoff : m.off = false) (hchild : m.pc.child = none ∨ m.pc.child = k.child)
    (halive : k ≠ .exit5)
    (hcalm : m.pc.Calm p) (hend : m.pc ≠ .exit5) : m.Ok σ p where
  calm := hcalm
  ended := fun he => absurd he hend
  holds := fun _ => by rw [hpc]; exact hholds
  off := fun ho => by rw [hoff] at ho; cases ho
  put := fun q' e' he => by
    rw [hput] at he
    obtain ⟨rfl, rfl⟩ := Prod.mk.inj (Option.some.inj he)
    exact hchange
  spawn := fun q k hk => by rw [hspawn] at hk; cases hk
  child := by rw [hpc]; exact hchild.imp_right Or.inl
  last := fun ho => by rw [hoff] at ho; cases ho
  alive := fun _ => by rw [hpc]; exact halive

/-- A move off the CPU. -/
theorem Move.Ok.leave {e : PEntry X} (hkeep : m.plock = .keep) (hholds : (σ.pc p).holds p = some p) (hrest : m.pc.Rest)
    (hput : m.put = some (p, e)) (hchange : Change σ p m p e) (hspawn : m.spawn = none) (hoff : m.off = true)
    (hchild : m.pc.child = none ∨ m.pc.child = (σ.pc p).child) (hcalm : m.pc.Calm p) (hend : m.pc ≠ .exit5) :
    m.Ok σ p where
  calm := hcalm
  ended := fun he => absurd he hend
  holds := fun ho => by rw [hoff] at ho; cases ho
  off := fun _ => ⟨hkeep, hholds, hrest⟩
  put := fun q' e' he => by
    rw [hput] at he
    obtain ⟨rfl, rfl⟩ := Prod.mk.inj (Option.some.inj he)
    exact hchange
  spawn := fun q k hk => by rw [hspawn] at hk; cases hk
  child := hchild.imp_right Or.inl
  last := fun _ hn => by rw [hput] at hn; cases hn
  alive := fun ho => by rw [hoff] at ho; cases ho

/-- The holder of the lock of a zombie is alone with it. -/
theorem Inv.zombie_off (h : Inv σ) (hrun : (σ.cpu c).run = some p) (hh : (σ.pc p).holds p = some q)
    (hz : (σ.proc q).state = .zombie) (hpc : σ.pc p ≠ .exit5) : σ.Off q := fun c' hc' => by
  have hf := h.fits q
  unfold State.Fits at hf
  rw [hz] at hf
  have hq := hf c' hc'
  have h1 : σ.plock q = some c' := (h.plock c' q).mpr (by rw [State.holds, hc']; simp only [hq]; rfl)
  have h2 : σ.plock q = some c := (h.plock c q).mpr (by rw [State.holds, hrun]; exact hh)
  have hc : c' = c := Option.some.inj (h1.symm.trans h2)
  rw [hc, hrun] at hc'
  exact hpc (Option.some.inj hc' ▸ hq)

end Moves

section Steps

variable {code : C → Instr D Λ X C} {m : Move D Λ X C} {σ σ' : State D Λ X C} {c : CpuId} {p q : Slot} {n : ℕ}

theorem call_ok {k : C} (hpc : σ.pc p = .run k) (hs : call code σ p n k = .ok m) : m.Ok σ p := by
  unfold call at hs
  generalize code k = i at hs
  cases i with
  | act f =>
    dsimp only at hs
    split at hs <;> cases hs
    exact .plain hpc rfl rfl rfl rfl (Or.inl rfl) nofun trivial nofun
  | kexit status =>
    dsimp only at hs
    split_ifs at hs
    cases hs
    exact .plain hpc rfl rfl rfl rfl (Or.inl rfl) nofun trivial nofun
  | _ =>
    cases hs
    exact .plain hpc rfl rfl rfl rfl (Or.inl rfl) nofun trivial nofun

/-- A place in the code of the kernel where no process lock is held and no child is being made. -/
structure Pc.Plain (p : Slot) (k : Pc Λ X C) : Prop where
  holds : k.holds p = none
  child : k.child = none
  calm : k.Calm p
  alive : k ≠ .exit5

theorem Sleeper.back_plain (s : Sleeper Λ X C) : (s.back : Pc Λ X C).Plain p := by
  cases s <;> exact ⟨rfl, rfl, trivial, nofun⟩

theorem Waker.back_plain (w : Waker X C) : (w.back : Pc Λ X C).Plain p := by
  cases w <;> exact ⟨rfl, rfl, trivial, nofun⟩

theorem Asker.back_plain (a : Asker C) (b : Bool) : (if b then a.yes else a.no : Pc Λ X C).Plain p := by
  cases a <;> cases b <;> exact ⟨rfl, rfl, trivial, nofun⟩

variable [DecidableEq X]

theorem next_ok (h : Inv σ) (hrun : (σ.cpu c).run = some p) (hs : next code σ p n = .ok m) : m.Ok σ p := by
  have hcalm := h.calm p
  unfold next at hs
  generalize hpc : σ.pc p = k at hs hcalm
  cases k with
  | run k => exact call_ok hpc hs
  | sleep1 s | yield1 k | killed1 a | setkilled1 k | fork6 k np pid | exit3 status =>
    cases hs
    exact .plain hpc ⟨rfl, rfl⟩ rfl rfl rfl (Or.inr rfl) nofun hcalm nofun
  | sleep2 s | fork4 k np pid | exit1 status | wait1 k | wait4 k r =>
    cases hs
    exact .plain hpc rfl rfl rfl rfl (Or.inr rfl) nofun trivial nofun
  | sleep3 s =>
    cases hs
    exact .leave rfl (by rw [hpc]; rfl) trivial rfl (.sleep rfl rfl rfl ⟨s, rfl, rfl⟩) rfl rfl (Or.inl rfl) trivial nofun
  | sleep4 s | setkilled2 k =>
    cases hs
    exact .write hpc ⟨rfl, rfl⟩ rfl (.keep rfl (Or.inr rfl) rfl) rfl rfl (Or.inl rfl) nofun trivial nofun
  | sleep5 s =>
    cases hs
    have hb : (s.back : Pc Λ X C).Plain p := s.back_plain
    exact .plain hpc hb.holds rfl rfl rfl (Or.inl hb.child) nofun hb.calm hb.alive
  | wakeup1 w i =>
    dsimp only at hs
    split at hs
    · cases hs
      have hb : (w.back : Pc Λ X C).Plain p := w.back_plain
      exact .plain hpc hb.holds rfl rfl rfl (Or.inl hb.child) nofun hb.calm hb.alive
    · split_ifs at hs <;> cases hs
      · exact .plain hpc rfl rfl rfl rfl (Or.inl rfl) nofun trivial nofun
      · exact .plain hpc ⟨rfl, rfl⟩ rfl rfl rfl (Or.inl rfl) nofun trivial nofun
  | wakeup2 w q =>
    cases hs
    refine .write hpc ⟨rfl, rfl⟩ rfl ?_ rfl rfl (Or.inl rfl) nofun trivial nofun
    split_ifs with hw
    · exact .wake hw.1 rfl rfl
    · exact .keep rfl (Or.inl rfl) rfl
  | yield2 k =>
    cases hs
    exact .leave rfl (by rw [hpc]; rfl) trivial rfl (.yield rfl rfl rfl) rfl rfl (Or.inr (by rw [hpc]; rfl)) hcalm nofun
  | yield3 k =>
    cases hs
    have hk : k ≠ .exit5 := by
      rintro rfl
      cases hcalm.1
    exact .plain hpc ⟨rfl, hcalm.1⟩ rfl rfl rfl (Or.inr rfl) nofun hcalm.2 hk
  | forkret k =>
    cases hs
    exact .plain hpc ⟨rfl, rfl⟩ rfl rfl rfl (Or.inl rfl) nofun trivial nofun
  | killed2 a =>
    cases hs
    have hb : (if (σ.proc p).killed then a.yes else a.no : Pc Λ X C).Plain p := a.back_plain _
    exact .plain hpc ⟨rfl, hb.holds⟩ rfl rfl rfl (Or.inl hb.child) nofun hb.calm hb.alive
  | kill1 pid k i | fork1 k child i =>
    dsimp only at hs
    split at hs <;> cases hs
    · exact .plain hpc rfl rfl rfl rfl (Or.inl rfl) nofun trivial nofun
    · exact .plain hpc ⟨rfl, rfl⟩ rfl rfl rfl (Or.inl rfl) nofun trivial nofun
  | kill2 pid k q =>
    dsimp only at hs
    split_ifs at hs with hpid hsl <;> cases hs
    · exact .write hpc ⟨rfl, rfl⟩ rfl (.wake hsl rfl rfl) rfl rfl (Or.inl rfl) nofun trivial nofun
    · exact .write hpc ⟨rfl, rfl⟩ rfl (.keep rfl (Or.inl rfl) rfl) rfl rfl (Or.inl rfl) nofun trivial nofun
    · exact .plain hpc ⟨rfl, rfl⟩ rfl rfl rfl (Or.inl rfl) nofun trivial nofun
  | fork2 k child q =>
    dsimp only at hs
    split_ifs at hs with hu <;> cases hs
    · refine ⟨fun _ => by rw [hpc]; rfl, nofun, fun q' e he => ?_, fun q' k' hk => ?_, ?_, nofun, nofun,
        fun _ => by rw [hpc]; exact nofun, trivial⟩
      · obtain ⟨rfl, rfl⟩ := Prod.mk.inj (Option.some.inj he)
        exact .alloc hu rfl rfl ⟨child, rfl⟩
      · obtain ⟨rfl, rfl⟩ := Prod.mk.inj (Option.some.inj hk)
        exact ⟨hu, child, rfl⟩
      · exact Or.inr (Or.inr ⟨q, child, rfl, rfl, by simp [Move.entry]⟩)
    · exact .plain hpc ⟨rfl, rfl⟩ rfl rfl rfl (Or.inl rfl) nofun trivial nofun
  | fork3 k np =>
    have hchild : (σ.pc p).child = some np := by rw [hpc]; rfl
    dsimp only at hs
    split_ifs at hs <;> cases hs
    · exact .write hpc ⟨rfl, rfl⟩ rfl (.free (Or.inr hchild) (h.off (h.child p np hchild) nofun nofun) rfl rfl rfl) rfl rfl
        (Or.inl rfl) nofun trivial nofun
    · exact .plain hpc ⟨rfl, rfl⟩ rfl rfl rfl (Or.inr rfl) nofun trivial nofun
  | fork5 k np pid =>
    cases hs
    exact .write hpc rfl rfl (.keep rfl (Or.inl rfl) rfl) rfl rfl (Or.inr rfl) nofun trivial nofun
  | fork7 k np pid =>
    cases hs
    exact .write hpc ⟨rfl, rfl⟩ rfl (.start (by rw [hpc]; rfl) rfl rfl rfl) rfl rfl (Or.inl rfl) nofun trivial nofun
  | exit2 status i =>
    dsimp only at hs
    split at hs
    · split at hs <;> cases hs <;> exact .plain hpc rfl rfl rfl rfl (Or.inl rfl) nofun trivial nofun
    · split_ifs at hs <;> cases hs
      · exact .write hpc rfl rfl (.keep rfl (Or.inl rfl) rfl) rfl rfl (Or.inl rfl) nofun trivial nofun
      · exact .plain hpc rfl rfl rfl rfl (Or.inl rfl) nofun trivial nofun
  | exit4 status =>
    cases hs
    refine ⟨fun _ => by rw [hpc]; rfl, nofun, fun q' e he => ?_, nofun, Or.inl rfl, nofun,
      fun _ => ⟨rfl, by simp [Move.entry]⟩, fun _ => by rw [hpc]; exact nofun, trivial⟩
    obtain ⟨rfl, rfl⟩ := Prod.mk.inj (Option.some.inj he)
    exact .exit rfl rfl rfl rfl
  | exit5 =>
    cases hs
    exact ⟨nofun, fun _ => ⟨rfl, by rw [hpc]; rfl, trivial⟩, nofun, nofun, Or.inl rfl, fun _ _ => (h.ended p hpc).1, nofun, nofun,
      trivial⟩
  | dead => cases hs
  | wait2 k i havekids =>
    dsimp only at hs
    split at hs
    · split_ifs at hs <;> cases hs <;> exact .plain hpc rfl rfl rfl rfl (Or.inl rfl) nofun trivial nofun
    · split_ifs at hs <;> cases hs
      · exact .plain hpc ⟨rfl, rfl⟩ rfl rfl rfl (Or.inl rfl) nofun trivial nofun
      · exact .plain hpc rfl rfl rfl rfl (Or.inl rfl) nofun trivial nofun
  | wait3 k q =>
    have halive : σ.pc p ≠ .exit5 := by rw [hpc]; exact nofun
    dsimp only at hs
    split_ifs at hs with hz <;> cases hs
    · exact .plain hpc ⟨rfl, rfl⟩ rfl rfl rfl (Or.inl rfl) nofun trivial nofun
    · exact .write hpc ⟨rfl, rfl⟩ rfl (.free (Or.inl hz) (h.zombie_off hrun (by rw [hpc]; rfl) hz halive) rfl rfl rfl) rfl rfl
        (Or.inl rfl) nofun trivial nofun
    · exact .plain hpc ⟨rfl, rfl⟩ rfl rfl rfl (Or.inl rfl) nofun trivial nofun

end Steps

section Machine

variable {σ σ' : State D Λ X C} {c : CpuId} {p : Slot}

/-- What one step of the scheduler does. -/
theorem scheduler_cases (hs : scheduler c σ = .ok σ') :
    (∃ p, (σ.cpu c).spc = .scan p ∧ σ.plock p = none ∧ σ' = { σ with
      plock := Function.update σ.plock p (some c),
      cpu := Function.update σ.cpu c { σ.cpu c with spc := .check p } }) ∨
    (∃ p, (σ.cpu c).spc = .check p ∧ (σ.proc p).state = .runnable ∧ σ' = { σ with
      proc := Function.update σ.proc p { σ.proc p with state := .running },
      cpu := Function.update σ.cpu c ⟨some p, some p, .back p⟩ }) ∨
    (∃ p, (σ.cpu c).spc = .check p ∧ σ.plock p = some c ∧ σ' = { σ with
      plock := Function.update σ.plock p none,
      cpu := Function.update σ.cpu c { σ.cpu c with spc := .scan (p + 1) } }) ∨
    (∃ p, (σ.cpu c).spc = .back p ∧ σ.plock p = some c ∧ σ' = { σ with
      plock := Function.update σ.plock p none,
      cpu := Function.update σ.cpu c ⟨none, none, .scan (p + 1)⟩ }) := by
  unfold scheduler at hs
  cases hspc : (σ.cpu c).spc with
  | scan p =>
    simp only [hspc] at hs
    cases hl : σ.plock p with
    | none =>
      simp only [hl, Outcome.ok.injEq] at hs
      exact Or.inl ⟨p, rfl, hl, hs.symm⟩
    | some c' =>
      simp only [hl] at hs
      split_ifs at hs
  | check p =>
    simp only [hspc] at hs
    split_ifs at hs with hr hl
    · exact Or.inr (Or.inl ⟨p, rfl, hr, (Outcome.ok.inj hs).symm⟩)
    · exact Or.inr (Or.inr (Or.inl ⟨p, rfl, hl, (Outcome.ok.inj hs).symm⟩))
  | back p =>
    simp only [hspc] at hs
    split_ifs at hs with hl
    exact Or.inr (Or.inr (Or.inr ⟨p, rfl, hl, (Outcome.ok.inj hs).symm⟩))

/-- A step of the scheduler that takes or drops a lock and changes its own `spc` only. -/
theorem Inv.sched (h : Inv σ) (op : LockOp Slot) (hrun : (σ.cpu c).run = none) {cpu : Cpu}
    {plock : Slot → Option CpuId} (hr : cpu.run = none) (hproc : ∀ p, cpu.proc = some p ↔ cpu.spc = .back p)
    (hop : op.run c σ.plock = .ok plock) (hshift : op.Shift (σ.cpu c).spc.holds cpu.spc.holds) :
    Inv { σ with plock := plock, cpu := Function.update σ.cpu c cpu } := by
  have hlock : ∀ c' q, plock q = some c' ↔
      State.holds { σ with plock := plock, cpu := Function.update σ.cpu c cpu } c' = some q := fun c' q => by
    by_cases hc : c' = c
    · have hnew : State.holds { σ with plock := plock, cpu := Function.update σ.cpu c cpu } c' = cpu.spc.holds := by
        simp only [State.holds, hc, Function.update_self, hr]
      rw [hnew, hc]
      exact hshift.run hop (fun l => by rw [h.plock, State.holds, hrun]) q
    · have hnew : State.holds { σ with plock := plock, cpu := Function.update σ.cpu c cpu } c' = σ.holds c' := by
        simp only [State.holds, Function.update_of_ne hc]
      rw [hnew, ← h.plock]
      exact LockOp.run_other hop hc
  have hcpu : ∀ c', (Function.update σ.cpu c cpu c').run = (σ.cpu c').run := fun c' => by
    by_cases hc : c' = c
    · rw [hc, Function.update_self, hr, hrun]
    · rw [Function.update_of_ne hc]
  have hOff : ∀ q, State.Off { σ with plock := plock, cpu := Function.update σ.cpu c cpu } q ↔ σ.Off q := fun q => by
    simp only [State.Off, hcpu]
  refine ⟨hlock, fun c' q => ?_, fun c' q hq => ?_, fun c1 c2 q h1 h2 => ?_, fun q => ?_,
    fun q hq => h.rest q ((hOff q).mp hq), h.child, h.apart, h.calm, fun q hq => ?_⟩
  · by_cases hc : c' = c
    · rw [hc]
      simp only [Function.update_self]
      exact hproc q
    · simp only [Function.update_of_ne hc]
      exact h.proc c' q
  · have hne : c' ≠ c := by
      rintro rfl
      simp only [hcpu, hrun] at hq
      cases hq
    simp only [Function.update_of_ne hne] at hq ⊢
    exact h.stack c' q hq
  · simp only [hcpu] at h1 h2
    exact h.one c1 c2 q h1 h2
  · have hf := h.fits q
    unfold State.Fits at hf ⊢
    simp only [hOff, hcpu]
    exact hf
  · simp only [hOff]
    exact h.ended q hq

/-- Switching to a process that is ready to run. -/
theorem Inv.dispatch (h : Inv σ) (hrun : (σ.cpu c).run = none) (hspc : (σ.cpu c).spc = .check p)
    (hst : (σ.proc p).state = .runnable) : Inv { σ with
      proc := Function.update σ.proc p { σ.proc p with state := .running },
      cpu := Function.update σ.cpu c ⟨some p, some p, .back p⟩ } := by
  have hoff : σ.Off p := h.off hst nofun nofun
  have hholds := (h.rest p hoff).holds p
  have hcpu : ∀ c', c' ≠ c → Function.update σ.cpu c ⟨some p, some p, .back p⟩ c' = σ.cpu c' :=
    fun c' hc => Function.update_of_ne hc _ _
  have hproc : ∀ q, q ≠ p → Function.update σ.proc p { σ.proc p with state := .running } q = σ.proc q :=
    fun q hq => Function.update_of_ne hq _ _
  have hOff : ∀ q, q ≠ p → σ.Off q → ∀ c', (Function.update σ.cpu c ⟨some p, some p, .back p⟩ c').run ≠ some q :=
    fun q hq ho c' => by
      by_cases hc : c' = c
      · rw [hc, Function.update_self]
        simpa using Ne.symm hq
      · rw [hcpu c' hc]
        exact ho c'
  have hbusy : ∀ {c' q}, (σ.cpu c').run = some q →
      (Function.update σ.cpu c ⟨some p, some p, .back p⟩ c').run = some q := fun {c' q} hq => by
    rw [hcpu c', hq]
    rintro rfl
    rw [hrun] at hq
    cases hq
  refine ⟨fun c' q => ?_, fun c' q => ?_, fun c' q hq => ?_, fun c1 c2 q h1 h2 => ?_, fun q => ?_,
    fun q hq => h.rest q fun c' hc' => hq c' (hbusy hc'), fun p' np hc => ?_, h.apart, h.calm, fun q hq => ?_⟩
  · rw [show State.plock _ q = σ.plock q from rfl, h.plock]
    unfold State.holds
    by_cases hc : c' = c
    · simp only [hc, Function.update_self, hrun, hspc]
      rw [hholds]
      rfl
    · simp only [hcpu c' hc]
  · by_cases hc : c' = c
    · simp only [hc, Function.update_self, Option.some.injEq, SPc.back.injEq]
    · simp only [hcpu c' hc]
      exact h.proc c' q
  · by_cases hc : c' = c
    · simp only [hc, Function.update_self, Option.some.injEq] at hq ⊢
      rw [hq]
    · simp only [hcpu c' hc] at hq ⊢
      exact h.stack c' q hq
  · have hval : ∀ c', (Function.update σ.cpu c ⟨some p, some p, .back p⟩ c').run = some q →
        (c' = c ∧ q = p) ∨ (c' ≠ c ∧ (σ.cpu c').run = some q) := fun c' hq => by
      by_cases hc : c' = c
      · rw [hc, Function.update_self] at hq
        exact Or.inl ⟨hc, (Option.some.inj hq).symm⟩
      · rw [hcpu c' hc] at hq
        exact Or.inr ⟨hc, hq⟩
    rcases hval c1 h1 with ⟨e1, rfl⟩ | ⟨n1, r1⟩ <;> rcases hval c2 h2 with ⟨e2, q2⟩ | ⟨n2, r2⟩
    · rw [e1, e2]
    · exact absurd r2 (hoff c2)
    · exact absurd r1 (q2 ▸ hoff c1)
    · exact h.one c1 c2 q r1 r2
  · unfold State.Fits
    by_cases hq : q = p
    · subst hq
      simp only [Function.update_self]
      exact ⟨c, by simp only [Function.update_self]⟩
    · have hfq := h.fits q
      unfold State.Fits at hfq
      simp only [hproc q hq]
      cases hs : (σ.proc q).state with
      | unused | used | runnable =>
        rw [hs] at hfq
        exact hOff q hq hfq
      | sleeping =>
        rw [hs] at hfq
        exact ⟨hOff q hq hfq.1, hfq.2⟩
      | running =>
        rw [hs] at hfq
        obtain ⟨c', hc'⟩ := hfq
        exact ⟨c', hbusy hc'⟩
      | zombie =>
        rw [hs] at hfq
        intro c' hc'
        by_cases hc : c' = c
        · simp only [hc, Function.update_self, Option.some.injEq] at hc'
          exact absurd hc'.symm hq
        · simp only [hcpu c' hc] at hc'
          exact hfq c' hc'
  · have hold := h.child p' np hc
    have hnp : np ≠ p := by
      rintro rfl
      rw [hst] at hold
      cases hold
    simp only [hproc np hnp]
    exact hold
  · have hold := h.ended q hq
    have hqp : q ≠ p := by
      rintro rfl
      rw [hst] at hold
      cases hold.1
    simp only [hproc q hqp]
    exact ⟨hold.1, fun ho => hold.2 fun c' hc' => ho c' (hbusy hc')⟩

theorem Inv.scheduler (h : Inv σ) (hrun : (σ.cpu c).run = none) (hs : scheduler c σ = .ok σ') : Inv σ' := by
  rcases scheduler_cases hs with ⟨p, hspc, hfree, rfl⟩ | ⟨p, hspc, hst, rfl⟩ | ⟨p, hspc, hl, rfl⟩ | ⟨p, hspc, hl, rfl⟩
  · have hnone : ∀ q, (σ.cpu c).proc = some q ↔ SPc.check p = .back q := fun q => by
      rw [h.proc, hspc]
      exact ⟨nofun, nofun⟩
    exact h.sched (.take p) hrun hrun hnone (by rw [LockOp.run, hfree]) ⟨by rw [hspc]; rfl, rfl⟩
  · exact h.dispatch hrun hspc hst
  · have hnone : ∀ q, (σ.cpu c).proc = some q ↔ SPc.scan (p + 1) = .back q := fun q => by
      rw [h.proc, hspc]
      exact ⟨nofun, nofun⟩
    exact h.sched (.drop p) hrun hrun hnone (by rw [LockOp.run, if_pos hl]) ⟨by rw [hspc]; rfl, rfl⟩
  · exact h.sched (.drop p) hrun rfl (fun q => ⟨nofun, nofun⟩) (by rw [LockOp.run, if_pos hl])
      ⟨by rw [hspc]; rfl, rfl⟩

/-- A timer interrupt. -/
theorem Inv.tick (h : Inv σ) (hrun : (σ.cpu c).run = some p) (hfree : σ.free c none) :
    Inv { σ with pc := Function.update σ.pc p (.yield1 (σ.pc p)) } := by
  have hnone : (σ.pc p).holds p = none := by
    by_contra hne
    obtain ⟨q, hq⟩ := Option.ne_none_iff_exists'.mp hne
    have := hfree.2 q ((h.plock c q).mpr (by rw [State.holds, hrun]; exact hq))
    cases this
  have hst : (σ.proc p).state = .running := h.running hrun fun he => by
    rw [he] at hnone
    cases hnone
  have hpc : ∀ q, q ≠ p → Function.update σ.pc p (.yield1 (σ.pc p)) q = σ.pc q := fun q hq => Function.update_of_ne hq _ _
  have hchild : ∀ q, (Function.update σ.pc p (.yield1 (σ.pc p)) q).child = (σ.pc q).child := fun q => by
    by_cases hq : q = p
    · rw [hq, Function.update_self]
      rfl
    · rw [hpc q hq]
  refine ⟨fun c' q => ?_, h.proc, h.stack, h.one, fun q => ?_, fun q hq => ?_, fun p' np hc => ?_, fun p1 p2 np h1 h2 => ?_,
    fun q => ?_, fun q hq => ?_⟩
  · rw [show State.plock _ q = σ.plock q from rfl, h.plock]
    unfold State.holds
    cases hr : (σ.cpu c').run with
    | none => rfl
    | some p' =>
      by_cases hp' : p' = p
      · simp only [hp', Function.update_self, hnone]
        exact ⟨nofun, nofun⟩
      · simp only [hpc p' hp']
  · have hf := h.fits q
    by_cases hq : q = p
    · subst hq
      unfold State.Fits at hf ⊢
      simp only [hst] at hf ⊢
      exact hf
    · unfold State.Fits at hf ⊢
      simp only [hpc q hq]
      exact hf
  · have hqp : q ≠ p := fun he => hq c (he ▸ hrun)
    simp only [hpc q hqp]
    exact h.rest q hq
  · simp only [hchild] at hc
    exact h.child p' np hc
  · simp only [hchild] at h1 h2
    exact h.apart p1 p2 np h1 h2
  · by_cases hq : q = p
    · subst hq
      simp only [Function.update_self]
      exact ⟨hnone, h.calm q⟩
    · simp only [hpc q hq]
      exact h.calm q
  · by_cases hqp : q = p
    · simp only [hqp, Function.update_self] at hq
      cases hq
    · simp only [hpc q hqp] at hq
      exact h.ended q hq

variable [DecidableEq Λ] [Fintype Λ] [DecidableEq X] {code : C → Instr D Λ X C}

/-- What one step does: a step of the scheduler, a move of the running process, or an interrupt. -/
theorem step_cases {a : Act} (hs : step code a σ = .ok σ') :
    (∃ c n, a = .step c n ∧ (σ.cpu c).run = none ∧ scheduler c σ = .ok σ') ∨
    (∃ c n p m, a = .step c n ∧ (σ.cpu c).run = some p ∧ next code σ p n = .ok m ∧ m.apply σ c p = .ok σ') ∨
    (∃ c p, a = .tick c ∧ (σ.cpu c).run = some p ∧ σ.free c none ∧
      σ' = { σ with pc := Function.update σ.pc p (.yield1 (σ.pc p)) }) := by
  cases a with
  | step c n =>
    simp only [step] at hs
    cases hr : (σ.cpu c).run with
    | none =>
      rw [hr] at hs
      exact Or.inl ⟨c, n, rfl, hr, hs⟩
    | some p =>
      simp only [hr] at hs
      cases hm : next code σ p n with
      | ok m =>
        rw [hm] at hs
        exact Or.inr (Or.inl ⟨c, n, p, m, rfl, hr, hm, hs⟩)
      | blocked => simp [hm] at hs
      | panic msg => simp [hm] at hs
  | tick c =>
    simp only [step] at hs
    cases hr : (σ.cpu c).run with
    | none => simp [hr] at hs
    | some p =>
      simp only [hr] at hs
      split_ifs at hs with hf
      exact Or.inr (Or.inr ⟨c, p, rfl, hr, hf, (Outcome.ok.inj hs).symm⟩)

theorem Inv.step {a : Act} (h : Inv σ) (hs : step code a σ = .ok σ') : Inv σ' := by
  rcases step_cases hs with ⟨c, n, -, hr, hs⟩ | ⟨c, n, p, m, -, hr, hm, hs⟩ | ⟨c, p, -, hr, hf, rfl⟩
  · exact h.scheduler hr hs
  · exact h.move hr (next_ok h hr hm) hs
  · exact h.tick hr hf

omit [DecidableEq Λ] [Fintype Λ] [DecidableEq X] in
theorem boot_inv (d : D) (k : C) : Inv (boot d k : State D Λ X C) := by
  have hstate : ∀ p, ((boot d k : State D Λ X C).proc p).state = if p = initproc then .runnable else .unused := fun p => by
    simp only [boot, Function.update_apply]
    split_ifs <;> rfl
  refine ⟨fun c q => ⟨nofun, nofun⟩, fun c p => ⟨nofun, nofun⟩, nofun, nofun, fun p => ?_, fun p _ => trivial, nofun,
    nofun, fun p => trivial, nofun⟩
  unfold State.Fits
  rw [hstate]
  split_ifs
  · exact nofun
  · exact nofun

/-- The invariant holds in every state that can be reached. -/
theorem run_inv {P : State D Λ X C → Act → Prop} {d : D} {k : C} {as : List Act} {u : State D Λ X C}
    (h : Run (Proc.step code) P (boot d k) as u) : Inv u :=
  h.inv (boot_inv d k) fun _ _ _ hi _ hs => hi.step hs

end Machine

end Xv6.Proc
