import Xv6.Sanity.Wakeup

/-! Sleep and wakeup lose no wakeup. -/

namespace Xv6.Proc

open Machine

variable {D Λ X C : Type} [DecidableEq Λ] [Fintype Λ] [DecidableEq X]

/-- **No wakeup is lost.** Code whose processes wait for a condition in a loop around `sleep` and
make it true only under the lock, with a `wakeup` before they release it (`Discipline`, `Honest`), never
leaves a process asleep on the channel while the lock is free and the condition true, whatever
the interleaving of the steps of `sleep`, `sched`, `scheduler` and `wakeup`. -/
theorem no_lost_wakeup (code : C → Instr D Λ X C) (l : Λ) (x : X) (cond : D → Prop) (stand : C → Sec)
    (hd : Discipline code l x cond stand) (hh : Honest code cond stand) (d : D) (k : C)
    (hk : stand k = .out) (as : List Act) (u : State D Λ X C)
    (h : Run (step code) Free (boot d k) as u) :
    ¬ (u.lock (.user l) = none ∧ cond u.data ∧
      ∃ p, (u.proc p).state = .sleeping ∧ (u.proc p).chan = some (.user x)) := by
  rintro ⟨hfree, hc, p, hsl, hch⟩
  have hinv := run_wake hd (fun _ _ n _ hw _ _ => hh.attentive hw n) hk h
  exact hinv.2.none_lost hinv.1 hfree hc hsl hch

/-- A process that forks, sets a flag and wakes the child, which waits for the flag. -/
inductive Flag where
  | start
  | enter
  | test
  | asleep
  | found
  | take
  | set
  | wake
  | drop
  | done
  deriving DecidableEq

def Flag.code : Flag → Instr Bool Unit Unit Flag
  | .start => .kfork (fun _ => .take) .enter
  -- acquire(lk); while(!flag) sleep(chan, lk); release(lk)
  | .enter => .acquire () .test
  | .test => .act fun _ flag => some (flag, if flag then .found else .asleep)
  | .asleep => .sleep () () .test
  | .found => .release () .done
  -- acquire(lk); flag = 1; wakeup(chan); release(lk)
  | .take => .acquire () .set
  | .set => .act fun _ _ => some (true, .wake)
  | .wake => .wakeup () .drop
  | .drop => .release () .done
  | .done => .act fun _ _ => none

def Flag.stand : Flag → Sec
  | .start | .enter | .take | .done => .out
  | .test | .found | .set => .clean
  | .asleep => .idle
  | .wake => .dirty
  | .drop => .paid

theorem flag_discipline : Discipline Flag.code () () (· = true) Flag.stand where
  act := by
    intro k f n d d' k' hk hf _
    cases k with
    | test =>
      cases hk
      cases d <;> cases hf <;> decide
    | set =>
      cases hk
      cases hf
      cases d <;> decide
    | done =>
      cases hk
      cases hf
    | _ => cases hk
  acquire := by intro k l' k' hk; cases k <;> cases hk <;> decide
  release := by intro k l' k' hk; cases k <;> cases hk <;> decide
  sleep := by intro k y l' k' hk; cases k <;> cases hk; decide
  wakeup := by intro k y k' hk; cases k <;> cases hk; decide
  killed := by intro k yes no hk; cases k <;> cases hk
  setkilled := by intro k k' hk; cases k <;> cases hk
  kkill := by intro k pid k' hk; cases k <;> cases hk
  kfork := by
    intro k k' child hk
    cases k <;> cases hk
    exact ⟨rfl, rfl, fun _ => rfl⟩
  kexit := by intro k status hk; cases k <;> cases hk
  kwait := by intro k k' hk; cases k <;> cases hk

theorem flag_honest : Honest Flag.code (· = true) Flag.stand where
  act := by
    intro k f n d d' k' hk hf hdirty
    cases k <;> cases hk <;> cases hdirty
  killed := by intro k yes no hk; cases k <;> cases hk

/-- The child goes to sleep on CPU 1; then the parent sets the flag and wakes it on CPU 0. -/
def sleepThenWake : List Act :=
  List.replicate 13 (.step 0 1) ++ List.replicate 12 (.step 1 0) ++ List.replicate 132 (.step 0 0)

theorem sleepThenWake_ok : (execIf (step Flag.code) (fun _ _ => true) sleepThenWake (boot false .start)).Sat fun u =>
    u.lock (.user ()) = none ∧ u.data = true ∧ (u.proc 1).chan = some (.user ()) := by
  decide +kernel

theorem no_lost_wakeup_flag : ∃ u, Run (step Flag.code) Free (boot false .start) sleepThenWake u ∧
    u.lock (.user ()) = none ∧ u.data = true ∧ (u.proc 1).chan = some (.user ()) ∧ (u.proc 1).state ≠ .sleeping := by
  obtain ⟨u, hu, hfree, hflag, hch⟩ := sleepThenWake_ok.ok
  have hrun := (run_of_execIf hu).free
  have hnone := no_lost_wakeup Flag.code () () (· = true) Flag.stand flag_discipline
    flag_honest false .start rfl sleepThenWake u hrun
  exact ⟨u, hrun, hfree, hflag, hch, fun hsl => hnone ⟨hfree, hflag, 1, hsl, hch⟩⟩

end Xv6.Proc
