import Xv6.Sanity.Locks

/-! Reasoning about the code that the processes run. Seen from that code, a process is at one
point of it, or in a call that it will come back from; the steps of the kernel in between do not
matter. What each process knows at its point, and what all of them keep about the data, is
proved from the code alone: what its own steps do, and that the steps of others, which are not
in the critical section with it and have other tokens than it, leave it what it knows. -/

namespace Xv6.Proc

open Machine

variable {D Λ X C : Type}

section Points

variable (code : C → Instr D Λ X C) (start : C)

def Sleeper.Valid : Sleeper Λ X C → Prop
  | .user x l k => ∃ k₀, code k₀ = .sleep x l k
  | .wait k => ∃ k₀, code k₀ = .kwait k

def Waker.Valid : Waker X C → Prop
  | .user x k => ∃ k₀, code k₀ = .wakeup x k
  | _ => True

def Asker.Valid : Asker C → Prop
  | .user yes no => ∃ k₀, code k₀ = .killed yes no
  | .wait k => ∃ k₀, code k₀ = .kwait k

/-- A process in the kernel has got there by a call of its code. -/
def Pc.Valid : Pc Λ X C → Prop
  | .sleep1 s | .sleep2 s | .sleep3 s | .sleep4 s | .sleep5 s => s.Valid code
  | .wakeup1 w _ | .wakeup2 w _ => w.Valid code
  | .killed1 a | .killed2 a => a.Valid code
  | .setkilled1 k | .setkilled2 k => ∃ k₀, code k₀ = .setkilled k
  | .kill1 pid k _ | .kill2 pid k _ => ∃ k₀, code k₀ = .kkill pid k
  | .fork1 k child _ | .fork2 k child _ => ∃ k₀, code k₀ = .kfork k child
  | .fork3 k _ | .fork4 k _ _ | .fork5 k _ _ | .fork6 k _ _ | .fork7 k _ _ => ∃ k₀ child, code k₀ = .kfork k child
  | .forkret k => k = start ∨ ∃ k₀ k', code k₀ = .kfork k' k
  | .wait1 k | .wait2 k _ _ | .wait3 k _ | .wait4 k _ => ∃ k₀, code k₀ = .kwait k
  | .yield1 k | .yield2 k | .yield3 k => Pc.Valid k
  | _ => True

/-- The point of its code a process is at. -/
def Pc.at : Pc Λ X C → Option C
  | .run k | .forkret k | .setkilled1 k | .setkilled2 k => some k
  | .sleep1 (.user _ _ k) | .sleep2 (.user _ _ k) | .sleep3 (.user _ _ k) | .sleep4 (.user _ _ k)
  | .sleep5 (.user _ _ k) => some k
  | .wakeup1 (.user _ k) _ | .wakeup2 (.user _ k) _ => some k
  | .killed1 (.user _ no) | .killed2 (.user _ no) => some no
  | .yield1 k | .yield2 k | .yield3 k => k.at
  | _ => none

/-- The ways from a point to the next that are no steps on the data. -/
inductive Edge : C → C → Prop
  | acquire {k k' : C} {l : Λ} : code k = .acquire l k' → Edge k k'
  | release {k k' : C} {l : Λ} : code k = .release l k' → Edge k k'
  | sleep {k k' : C} {x : X} {l : Λ} : code k = .sleep x l k' → Edge k k'
  | wakeup {k k' : C} {x : X} : code k = .wakeup x k' → Edge k k'
  | setkilled {k k' : C} : code k = .setkilled k' → Edge k k'
  | no {k yes no : C} : code k = .killed yes no → Edge k no
  | yes {k yes no : C} : code k = .killed yes no → Edge no yes

/-- The points at which a process begins, or comes back from a call. -/
inductive Entry : C → Prop
  | start : Entry start
  | kkill {k : C} {pid : Int32} {k' : Int32 → C} (r : Int32) : code k = .kkill pid k' → Entry (k' r)
  | kfork {k child : C} {k' : Int32 → C} (r : Int32) : code k = .kfork k' child → Entry (k' r)
  | child {k child : C} {k' : Int32 → C} : code k = .kfork k' child → Entry child
  | kwait {k : C} {k' : Int32 → C} (r : Int32) : code k = .kwait k' → Entry (k' r)

/-- What one step of a process at `pc` is for its code. -/
inductive Goes (d : D) (pc : Pc Λ X C) : Option C → D → Prop
  | stay : Goes d pc pc.at d
  | act {k k' : C} {f : ℕ → D → Option (D × C)} {n : ℕ} {d' : D} (hpc : pc = .run k) (hk : code k = .act f)
      (hf : f n d = some (d', k')) : Goes d pc (some k') d'
  | edge {k k' : C} (hpc : pc.at = some k) (he : Edge code k k') : Goes d pc (some k') d
  | leave : Goes d pc none d
  | enter {k : C} (he : Entry code start k) : Goes d pc (some k) d

end Points

section Steps

variable {code : C → Instr D Λ X C} {start : C} {m : Move D Λ X C} {σ σ' : State D Λ X C} {c : CpuId} {p q : Slot} {n : ℕ}

theorem call_goes (start : C) {k : C} (hn : call code σ p n k = .ok m) :
    m.pc.Valid code start ∧ Goes code start σ.data (.run k) m.pc.at m.data ∧ m.spawn = none := by
  unfold call at hn
  cases hk : code k with rw [hk] at hn
  | act f =>
    dsimp only at hn
    split at hn <;> cases hn
    exact ⟨trivial, .act rfl hk ‹_›, rfl⟩
  | acquire l k' =>
    cases hn
    exact ⟨trivial, .edge rfl (.acquire hk), rfl⟩
  | release l k' =>
    cases hn
    exact ⟨trivial, .edge rfl (.release hk), rfl⟩
  | sleep x l k' =>
    cases hn
    exact ⟨⟨k, hk⟩, .edge rfl (.sleep hk), rfl⟩
  | wakeup x k' =>
    cases hn
    exact ⟨⟨k, hk⟩, .edge rfl (.wakeup hk), rfl⟩
  | killed yes no =>
    cases hn
    exact ⟨⟨k, hk⟩, .edge rfl (.no hk), rfl⟩
  | setkilled k' =>
    cases hn
    exact ⟨⟨k, hk⟩, .edge rfl (.setkilled hk), rfl⟩
  | kkill pid k' | kfork k' child | kwait k' =>
    cases hn
    exact ⟨⟨k, hk⟩, .leave, rfl⟩
  | kexit status =>
    dsimp only at hn
    split_ifs at hn
    cases hn
    exact ⟨trivial, .leave, rfl⟩

variable [DecidableEq X]

theorem next_goes (hv : (σ.pc p).Valid code start) (hn : next code σ p n = .ok m) :
    m.pc.Valid code start ∧ Goes code start σ.data (σ.pc p) m.pc.at m.data ∧
    ∀ q k, m.spawn = some (q, k) → ∃ child, k = .forkret child ∧ Entry code start child ∧
      (Pc.forkret child : Pc Λ X C).Valid code start := by
  unfold next at hn
  generalize σ.pc p = k at hn hv ⊢
  cases k with
  | run k =>
    obtain ⟨h1, h2, h3⟩ := call_goes start hn
    refine ⟨h1, h2, fun q k hk => ?_⟩
    rw [h3] at hk
    cases hk
  | sleep1 s | sleep2 s | sleep3 s | sleep4 s =>
    cases hn
    cases s <;> exact ⟨hv, .stay, nofun⟩
  | sleep5 s =>
    cases hn
    cases s with
    | user x l k => exact ⟨trivial, .stay, nofun⟩
    | wait k => exact ⟨hv, .stay, nofun⟩
  | yield1 k | yield2 k | yield3 k | setkilled1 k | fork4 k np pid | fork5 k np pid | fork6 k np pid | wait1 k =>
    cases hn
    exact ⟨hv, .stay, nofun⟩
  | killed1 a =>
    cases hn
    cases a <;> exact ⟨hv, .stay, nofun⟩
  | forkret k | setkilled2 k | exit1 status | exit3 status | exit4 status | exit5 =>
    cases hn
    exact ⟨trivial, .stay, nofun⟩
  | killed2 a =>
    cases hn
    cases a with
    | user yes no =>
      obtain ⟨k₀, hk₀⟩ := hv
      cases (σ.proc p).killed
      · exact ⟨trivial, .stay, nofun⟩
      · exact ⟨trivial, .edge rfl (.yes hk₀), nofun⟩
    | wait k => cases (σ.proc p).killed <;> exact ⟨hv, .stay, nofun⟩
  | wakeup1 w i =>
    dsimp only at hn
    split at hn
    · cases hn
      cases w <;> exact ⟨trivial, .stay, nofun⟩
    · split_ifs at hn <;> cases hn <;> cases w <;> exact ⟨hv, .stay, nofun⟩
  | wakeup2 w q =>
    cases hn
    cases w <;> exact ⟨hv, .stay, nofun⟩
  | kill1 pid k i =>
    obtain ⟨k₀, hk₀⟩ := hv
    dsimp only at hn
    split at hn <;> cases hn
    · exact ⟨trivial, .enter (.kkill _ hk₀), nofun⟩
    · exact ⟨⟨k₀, hk₀⟩, .stay, nofun⟩
  | kill2 pid k q =>
    obtain ⟨k₀, hk₀⟩ := hv
    dsimp only at hn
    split_ifs at hn <;> cases hn
    · exact ⟨trivial, .enter (.kkill _ hk₀), nofun⟩
    · exact ⟨trivial, .enter (.kkill _ hk₀), nofun⟩
    · exact ⟨⟨k₀, hk₀⟩, .stay, nofun⟩
  | fork1 k child i =>
    obtain ⟨k₀, hk₀⟩ := hv
    dsimp only at hn
    split at hn <;> cases hn
    · exact ⟨trivial, .enter (.kfork _ hk₀), nofun⟩
    · exact ⟨⟨k₀, hk₀⟩, .stay, nofun⟩
  | fork2 k child q =>
    obtain ⟨k₀, hk₀⟩ := hv
    dsimp only at hn
    split_ifs at hn <;> cases hn
    · refine ⟨⟨k₀, child, hk₀⟩, .stay, fun q' k' hk => ?_⟩
      obtain ⟨rfl, rfl⟩ := Prod.mk.inj (Option.some.inj hk)
      exact ⟨child, rfl, .child hk₀, Or.inr ⟨k₀, k, hk₀⟩⟩
    · exact ⟨⟨k₀, hk₀⟩, .stay, nofun⟩
  | fork3 k np =>
    obtain ⟨k₀, child, hk₀⟩ := hv
    dsimp only at hn
    split_ifs at hn <;> cases hn
    · exact ⟨trivial, .enter (.kfork _ hk₀), nofun⟩
    · exact ⟨⟨k₀, child, hk₀⟩, .stay, nofun⟩
  | fork7 k np pid =>
    cases hn
    obtain ⟨k₀, child, hk₀⟩ := hv
    exact ⟨trivial, .enter (.kfork _ hk₀), nofun⟩
  | exit2 status i =>
    dsimp only at hn
    split at hn <;> split at hn <;> cases hn <;> exact ⟨trivial, .stay, nofun⟩
  | dead => cases hn
  | wait2 k i havekids =>
    dsimp only at hn
    split at hn <;> split_ifs at hn <;> cases hn <;> exact ⟨hv, .stay, nofun⟩
  | wait3 k q =>
    dsimp only at hn
    split_ifs at hn <;> cases hn <;> exact ⟨hv, .stay, nofun⟩
  | wait4 k r =>
    cases hn
    obtain ⟨k₀, hk₀⟩ := hv
    exact ⟨trivial, .enter (.kwait _ hk₀), nofun⟩

end Steps

section Locks

variable [DecidableEq Λ]

/-- The points `ins` are those at which the code holds the lock `l`. -/
structure Locking (code : C → Instr D Λ X C) (start : C) (l : Λ) (ins : C → Prop) : Prop where
  act : ∀ {k f n d d' k'}, code k = .act f → f n d = some (d', k') → (ins k' ↔ ins k)
  acquire : ∀ {k l' k'}, code k = .acquire l' k' → if l' = l then ¬ ins k ∧ ins k' else (ins k' ↔ ins k)
  release : ∀ {k l' k'}, code k = .release l' k' → if l' = l then ins k ∧ ¬ ins k' else (ins k' ↔ ins k)
  sleep : ∀ {k x l' k'}, code k = .sleep x l' k' → if l' = l then ins k ∧ ins k' else (ins k' ↔ ins k)
  wakeup : ∀ {k x k'}, code k = .wakeup x k' → (ins k' ↔ ins k)
  killed : ∀ {k yes no}, code k = .killed yes no → (ins no ↔ ins k) ∧ (ins yes ↔ ins k)
  setkilled : ∀ {k k'}, code k = .setkilled k' → (ins k' ↔ ins k)
  kkill : ∀ {k pid k'}, code k = .kkill pid k' → ¬ ins k
  kfork : ∀ {k k' child}, code k = .kfork k' child → ¬ ins k
  kexit : ∀ {k status}, code k = .kexit status → ¬ ins k
  kwait : ∀ {k k'}, code k = .kwait k' → ¬ ins k
  entry : ∀ {k}, Entry code start k → ¬ ins k

def Sleeper.within (l : Λ) (ins : C → Prop) (asleep : Bool) : Sleeper Λ X C → Prop
  | .user _ l' k => if l' = l then asleep = false else ins k
  | .wait _ => False

/-- The places at which a process holds the lock `l`. -/
def Pc.within (l : Λ) (ins : C → Prop) : Pc Λ X C → Prop
  | .run k | .forkret k | .setkilled1 k | .setkilled2 k => ins k
  | .sleep1 s | .sleep2 s => s.within l ins false
  | .sleep3 s | .sleep4 s | .sleep5 s => s.within l ins true
  | .wakeup1 (.user _ k) _ | .wakeup2 (.user _ k) _ => ins k
  | .killed1 (.user _ no) | .killed2 (.user _ no) => ins no
  | .yield1 k | .yield2 k | .yield3 k => k.within l ins
  | _ => False

variable {code : C → Instr D Λ X C} {start : C} {l : Λ} {ins : C → Prop} {m : Move D Λ X C} {σ σ' : State D Λ X C}
  {c : CpuId} {p q : Slot} {n : ℕ}

theorem LockOp.Within.take_ne {lk l' : Lock Λ} {a b : Prop} (hne : l' ≠ lk) (h : b ↔ a) :
    (LockOp.take l').Within lk a b := by
  simpa only [LockOp.Within, if_neg hne] using h

theorem LockOp.Within.drop_ne {lk l' : Lock Λ} {a b : Prop} (hne : l' ≠ lk) (h : b ↔ a) :
    (LockOp.drop l').Within lk a b := by
  simpa only [LockOp.Within, if_neg hne] using h

/-- `wait_lock` is none of the code's locks. -/
theorem LockOp.Within.take_wait {a b : Prop} (h : b ↔ a) : (LockOp.take (.wait : Lock Λ)).Within (.user l) a b :=
  .take_ne nofun h

theorem LockOp.Within.drop_wait {a b : Prop} (h : b ↔ a) : (LockOp.drop (.wait : Lock Λ)).Within (.user l) a b :=
  .drop_ne nofun h

theorem Locking.call_within (hl : Locking code start l ins) {k : C} (hn : call code σ p n k = .ok m) :
    m.lock.Within (.user l) (ins k) (m.pc.within l ins) := by
  unfold call at hn
  cases hk : code k with rw [hk] at hn
  | act f =>
    dsimp only at hn
    split at hn <;> cases hn
    exact hl.act hk ‹_›
  | acquire l' k' =>
    cases hn
    simpa only [LockOp.Within, Lock.user.injEq, Move.goto, Pc.within] using hl.acquire hk
  | release l' k' =>
    cases hn
    simpa only [LockOp.Within, Lock.user.injEq, Move.goto, Pc.within] using hl.release hk
  | sleep x l' k' =>
    have h := hl.sleep hk
    cases hn
    by_cases hll : l' = l
    · rw [if_pos hll] at h
      exact iff_of_true (by simp only [Move.goto, Pc.within, Sleeper.within, if_pos hll]) h.1
    · rw [if_neg hll] at h
      simpa only [LockOp.Within, Move.goto, Pc.within, Sleeper.within, if_neg hll] using h
  | wakeup x k' =>
    cases hn
    exact hl.wakeup hk
  | killed yes no =>
    cases hn
    exact (hl.killed hk).1
  | setkilled k' =>
    cases hn
    exact hl.setkilled hk
  | kkill pid k' =>
    cases hn
    exact iff_of_false id (hl.kkill hk)
  | kfork k' child =>
    cases hn
    exact iff_of_false id (hl.kfork hk)
  | kwait k' =>
    cases hn
    exact iff_of_false id (hl.kwait hk)
  | kexit status =>
    dsimp only at hn
    split_ifs at hn
    cases hn
    exact iff_of_false id (hl.kexit hk)

variable [DecidableEq X]

theorem Locking.next_within (hl : Locking code start l ins) (hv : (σ.pc p).Valid code start)
    (hn : next code σ p n = .ok m) : m.lock.Within (.user l) ((σ.pc p).within l ins) (m.pc.within l ins) := by
  unfold next at hn
  generalize σ.pc p = k at hn hv ⊢
  cases k with
  | run k => exact hl.call_within hn
  | sleep1 s | sleep3 s | sleep4 s | yield1 k | yield2 k | yield3 k | forkret k | setkilled1 k | setkilled2 k
  | fork6 k np pid | exit3 status | exit5 =>
    cases hn
    exact Iff.rfl
  | killed1 a =>
    cases hn
    cases a <;> exact Iff.rfl
  | wakeup2 w q =>
    cases hn
    cases w <;> exact Iff.rfl
  | sleep2 s =>
    cases hn
    cases s with
    | user x l' k =>
      by_cases hll : l' = l
      · simp only [LockOp.Within, Sleeper.lock, Pc.within, Move.goto, Sleeper.within, hll, if_true]
        exact ⟨trivial, by simp⟩
      · refine .drop_ne (fun he => hll (Lock.user.inj he)) ?_
        simp only [Pc.within, Move.goto, Sleeper.within, if_neg hll]
    | wait k => exact .drop_wait Iff.rfl
  | sleep5 s =>
    cases hn
    cases s with
    | user x l' k =>
      obtain ⟨k₀, hk₀⟩ := hv
      have h := hl.sleep hk₀
      by_cases hll : l' = l
      · rw [if_pos hll] at h
        simp only [LockOp.Within, Sleeper.lock, Pc.within, Move.goto, Sleeper.within, hll, if_true]
        exact ⟨by simp, h.2⟩
      · refine .take_ne (fun he => hll (Lock.user.inj he)) ?_
        simp only [Pc.within, Sleeper.back, Move.goto, Sleeper.within, if_neg hll]
    | wait k => exact .take_wait Iff.rfl
  | killed2 a =>
    cases hn
    cases a with
    | user yes no =>
      obtain ⟨k₀, hk₀⟩ := hv
      obtain ⟨hno, hyes⟩ := hl.killed hk₀
      cases (σ.proc p).killed
      · exact Iff.rfl
      · exact hyes.trans hno.symm
    | wait k => cases (σ.proc p).killed <;> exact Iff.rfl
  | wakeup1 w i =>
    dsimp only at hn
    split at hn
    · cases hn
      cases w <;> exact Iff.rfl
    · split_ifs at hn <;> cases hn <;> cases w <;> exact Iff.rfl
  | kill1 pid k i =>
    obtain ⟨k₀, hk₀⟩ := hv
    dsimp only at hn
    split at hn <;> cases hn
    · exact iff_of_false (hl.entry (.kkill _ hk₀)) id
    · exact Iff.rfl
  | fork1 k child i =>
    obtain ⟨k₀, hk₀⟩ := hv
    dsimp only at hn
    split at hn <;> cases hn
    · exact iff_of_false (hl.entry (.kfork _ hk₀)) id
    · exact Iff.rfl
  | kill2 pid k q =>
    obtain ⟨k₀, hk₀⟩ := hv
    dsimp only at hn
    split_ifs at hn <;> cases hn
    · exact iff_of_false (hl.entry (.kkill _ hk₀)) id
    · exact iff_of_false (hl.entry (.kkill _ hk₀)) id
    · exact Iff.rfl
  | fork2 k child q | wait3 k q =>
    dsimp only at hn
    split_ifs at hn <;> cases hn <;> exact Iff.rfl
  | fork3 k np =>
    obtain ⟨k₀, child, hk₀⟩ := hv
    dsimp only at hn
    split_ifs at hn <;> cases hn
    · exact iff_of_false (hl.entry (.kfork _ hk₀)) id
    · exact Iff.rfl
  | fork7 k np pid =>
    cases hn
    obtain ⟨k₀, child, hk₀⟩ := hv
    exact iff_of_false (hl.entry (.kfork _ hk₀)) id
  | fork4 k np pid | exit1 status | wait1 k =>
    cases hn
    exact .take_wait Iff.rfl
  | fork5 k np pid | exit4 status =>
    cases hn
    exact .drop_wait Iff.rfl
  | wait4 k r =>
    cases hn
    obtain ⟨k₀, hk₀⟩ := hv
    exact .drop_wait (iff_of_false (hl.entry (.kwait _ hk₀)) id)
  | exit2 status i | wait2 k i havekids =>
    dsimp only at hn
    split at hn <;> split at hn <;> cases hn <;> exact Iff.rfl
  | dead => cases hn

end Locks

section Rule

variable [DecidableEq Λ] (code : C → Instr D Λ X C) (start : C) (l : Λ) (ins : C → Prop) (tok : C → Option ℕ)
  (fresh : D → ℕ) (Q : D → Prop) (F : C → D → Prop)

/-- A point to which the code comes back from a `sleep` that has given up the lock. -/
def Parked (j : C) : Prop := ∃ k₀ x, code k₀ = .sleep x l j

/-- `Q` is kept about the data, and `F` is known at the points. A process may hold a token, a number that
no other process has. -/
structure Sound : Prop where
  act : ∀ {k f n d d' k'}, code k = .act f → f n d = some (d', k') → Q d → F k d → (∀ t, tok k = some t → t < fresh d) →
    Q d' ∧ F k' d' ∧ fresh d ≤ fresh d' ∧
    (tok k' = tok k ∨ tok k' = none ∨ (tok k' = some (fresh d) ∧ fresh d' = fresh d + 1))
  edge : ∀ {k k' d}, Edge code k k' → F k d → F k' d ∧ (tok k' = tok k ∨ tok k' = none)
  entry : ∀ {k d}, Entry code start k → Q d → F k d ∧ tok k = none
  other : ∀ {k f n d d' k' j}, code k = .act f → f n d = some (d', k') → F k d → F j d →
    (ins k → ins j → Parked code l j) → (∀ t, tok k = some t → tok j ≠ some t) → (∀ t, tok j = some t → t < fresh d) →
    F j d'

structure Holds (σ : State D Λ X C) : Prop where
  valid : ∀ p, (σ.pc p).Valid code start
  guard : Guarded (.user l) (Pc.within l ins) σ
  data : Q σ.data
  point : ∀ p k, (σ.pc p).at = some k → F k σ.data
  fresh : ∀ p k t, (σ.pc p).at = some k → tok k = some t → t < fresh σ.data
  apart : ∀ p q k j t, p ≠ q → (σ.pc p).at = some k → (σ.pc q).at = some j → tok k = some t → tok j ≠ some t

variable {code start l ins tok fresh Q F} {m : Move D Λ X C} {σ σ' : State D Λ X C} {c : CpuId} {p q : Slot} {n : ℕ}

theorem Pc.within_of_at {pc : Pc Λ X C} {j : C} (hv : pc.Valid code start) (hat : pc.at = some j) (hj : ins j) :
    pc.within l ins ∨ Parked code l j := by
  induction pc with
  | run k | forkret k | setkilled1 k | setkilled2 k =>
    obtain rfl := Option.some.inj hat
    exact Or.inl hj
  | sleep1 s | sleep2 s | sleep3 s | sleep4 s | sleep5 s =>
    cases s with
    | user x l' k =>
      obtain rfl := Option.some.inj hat
      by_cases hll : l' = l
      · obtain ⟨k₀, hk₀⟩ := hv
        exact Or.inr ⟨k₀, x, hll ▸ hk₀⟩
      · left
        simpa only [Pc.within, Sleeper.within, if_neg hll] using hj
    | wait k => cases hat
  | wakeup1 w i | wakeup2 w i =>
    cases w with
    | user x k =>
      obtain rfl := Option.some.inj hat
      exact Or.inl hj
    | _ => cases hat
  | killed1 a | killed2 a =>
    cases a with
    | user yes no =>
      obtain rfl := Option.some.inj hat
      exact Or.inl hj
    | wait k => cases hat
  | yield1 k ih | yield2 k ih | yield3 k ih => exact ih hv hat
  | _ => cases hat

/-- Where a process is after a step, and what it knows. -/
theorem Holds.goes (hso : Sound code start l ins tok fresh Q F) (h : Holds code start l ins tok fresh Q F σ)
    {o : Option C} {d : D} (hg : Goes code start σ.data (σ.pc p) o d) :
    Q d ∧ fresh σ.data ≤ fresh d ∧ (∀ k, o = some k → F k d ∧ (tok k = none ∨
      (∃ k₀, (σ.pc p).at = some k₀ ∧ tok k = tok k₀) ∨ (tok k = some (fresh σ.data) ∧ fresh d = fresh σ.data + 1))) ∧
    (∀ q j, q ≠ p → (σ.pc q).at = some j → F j d) := by
  cases hg with
  | stay =>
    refine ⟨h.data, le_rfl, fun k hk => ⟨h.point p k hk, Or.inr (Or.inl ⟨k, hk, rfl⟩)⟩, fun q j _ hj => h.point q j hj⟩
  | @act k k' f n d hpc hk hf =>
    have hat : (σ.pc p).at = some k := by rw [hpc]; rfl
    obtain ⟨hQ, hF, hle, htok⟩ := hso.act hk hf h.data (h.point p k hat) fun t => h.fresh p k t hat
    refine ⟨hQ, hle, fun k'' hk'' => ?_, fun q j hq hj => ?_⟩
    · obtain rfl := Option.some.inj hk''
      refine ⟨hF, ?_⟩
      rcases htok with htok | htok | htok
      · exact Or.inr (Or.inl ⟨k, hat, htok⟩)
      · exact Or.inl htok
      · exact Or.inr (Or.inr htok)
    · refine hso.other hk hf (h.point p k hat) (h.point q j hj) (fun hik hij => ?_)
        (fun t => h.apart p q k j t (Ne.symm hq) hat hj) fun t => h.fresh q j t hj
      refine (Pc.within_of_at (h.valid q) hj hij).resolve_left fun hw => hq ?_
      exact h.guard.alone hw (by rw [hpc]; exact hik)
  | @edge k k' hpc he =>
    obtain ⟨hF, htok⟩ := hso.edge he (h.point p k hpc)
    refine ⟨h.data, le_rfl, fun k'' hk'' => ?_, fun q j _ hj => h.point q j hj⟩
    obtain rfl := Option.some.inj hk''
    exact ⟨hF, htok.elim (fun ht => Or.inr (Or.inl ⟨k, hpc, ht⟩)) Or.inl⟩
  | leave => exact ⟨h.data, le_rfl, nofun, fun q j _ hj => h.point q j hj⟩
  | @enter k he =>
    obtain ⟨hF, htok⟩ := hso.entry he h.data
    refine ⟨h.data, le_rfl, fun k'' hk'' => ?_, fun q j _ hj => h.point q j hj⟩
    obtain rfl := Option.some.inj hk''
    exact ⟨hF, Or.inl htok⟩

variable [DecidableEq X]

theorem Holds.move [Fintype Λ] (hlk : Locking code start l ins) (hso : Sound code start l ins tok fresh Q F)
    (hi : Inv σ) (h : Holds code start l ins tok fresh Q F σ) (hrun : (σ.cpu c).run = some p)
    (hn : next code σ p n = .ok m) (hs : m.apply σ c p = .ok σ') : Holds code start l ins tok fresh Q F σ' := by
  have hm := next_ok hi hrun hn
  obtain ⟨hvalid, hgoes, hspawn⟩ := next_goes (h.valid p) hn
  have hguard := h.guard.move hi hrun hm hs (hlk.next_within (h.valid p) hn) (next_off hm hn) fun q k hk => by
    obtain ⟨child, rfl, he, -⟩ := hspawn q k hk
    exact hlk.entry he
  obtain ⟨hQ, hle, hown, hother⟩ := h.goes hso hgoes
  obtain ⟨plock, lock, -, -, -, rfl⟩ := Move.apply_ok hs
  -- where the others are
  have hat : ∀ q j, q ≠ p → ((m.result σ c p plock lock).pc q).at = some j →
      (σ.pc q).at = some j ∨ Entry code start j := fun q j hq => by
    refine Move.result_pc (P := fun k => k.at = some j → (σ.pc q).at = some j ∨ Entry code start j) hq Or.inl
      fun k hk hj => ?_
    obtain ⟨child, rfl, he, -⟩ := hspawn q k hk
    exact Or.inr (Option.some.inj hj ▸ he)
  have hself : ((m.result σ c p plock lock).pc p).at = m.pc.at := by rw [Move.result_pc_self]
  have hdata : (m.result σ c p plock lock).data = m.data := rfl
  -- the token of the process that moves is its old one or a new one
  have htoken : ∀ k t, m.pc.at = some k → tok k = some t → t < fresh m.data ∧
      ∀ q j, q ≠ p → (σ.pc q).at = some j → tok j ≠ some t := fun k t hk ht => by
    rcases (hown k hk).2 with hno | ⟨k₀, hk₀, heq⟩ | ⟨hnew, hfr⟩
    · rw [ht] at hno
      cases hno
    · rw [heq] at ht
      exact ⟨(h.fresh p k₀ t hk₀ ht).trans_le hle, fun q j hq hj => h.apart p q k₀ j t (Ne.symm hq) hk₀ hj ht⟩
    · obtain rfl : t = fresh σ.data := Option.some.inj (ht.symm.trans hnew)
      exact ⟨by rw [hfr]; exact Nat.lt_succ_self _, fun q j _ hj htj => lt_irrefl _ (h.fresh q j _ hj htj)⟩
  refine ⟨fun q => ?_, hguard, hQ, fun q k hk => ?_, fun q k t hk ht => ?_, fun q r k j t hqr hk hj ht htj => ?_⟩
  · by_cases hq : q = p
    · rw [hq, Move.result_pc_self]
      exact hvalid
    · refine Move.result_pc hq (h.valid q) fun k hk => ?_
      obtain ⟨child, rfl, -, hv⟩ := hspawn q k hk
      exact hv
  · by_cases hq : q = p
    · rw [hq, hself] at hk
      exact (hown k hk).1
    · rcases hat q k hq hk with hk0 | he
      · exact hother q k hq hk0
      · exact (hso.entry he hQ).1
  · by_cases hq : q = p
    · rw [hq, hself] at hk
      exact (htoken k t hk ht).1
    · rcases hat q k hq hk with hk0 | he
      · exact (h.fresh q k t hk0 ht).trans_le hle
      · rw [(hso.entry (d := m.data) he hQ).2] at ht
        cases ht
  · have hentry : ∀ {j}, Entry code start j → tok j ≠ some t := fun he ht => by
      rw [(hso.entry (d := m.data) he hQ).2] at ht
      cases ht
    by_cases hq : q = p
    · subst hq
      rw [hself] at hk
      rcases hat r j (Ne.symm hqr) hj with hj0 | he
      · exact (htoken k t hk ht).2 r j (Ne.symm hqr) hj0 htj
      · exact hentry he htj
    · rcases hat q k hq hk with hk0 | he
      · by_cases hr : r = p
        · subst hr
          rw [hself] at hj
          exact (htoken j t hj htj).2 q k hqr hk0 ht
        · rcases hat r j hr hj with hj0 | he
          · exact h.apart q r k j t hqr hk0 hj0 ht htj
          · exact hentry he htj
      · exact hentry he ht

omit [DecidableEq X] in
theorem Holds.same (h : Holds code start l ins tok fresh Q F σ) (hd : σ'.data = σ.data)
    (hat : ∀ p, (σ'.pc p).at = (σ.pc p).at) (hv : ∀ p, (σ'.pc p).Valid code start)
    (hg : Guarded (.user l) (Pc.within l ins) σ') : Holds code start l ins tok fresh Q F σ' := by
  refine ⟨hv, hg, by rw [hd]; exact h.data, fun p k hk => ?_, fun p k t hk => ?_, fun p q k j t hpq hk hj => ?_⟩
  · rw [hat] at hk
    rw [hd]
    exact h.point p k hk
  · rw [hat] at hk
    rw [hd]
    exact h.fresh p k t hk
  · rw [hat] at hk hj
    exact h.apart p q k j t hpq hk hj

theorem Holds.step [Fintype Λ] (hlk : Locking code start l ins) (hso : Sound code start l ins tok fresh Q F) {a : Act}
    (hi : Inv σ) (h : Holds code start l ins tok fresh Q F σ) (hs : step code a σ = .ok σ') :
    Holds code start l ins tok fresh Q F σ' := by
  rcases step_cases hs with ⟨c, n, -, hr, hs⟩ | ⟨c, n, p, m, -, hr, hn, hs⟩ | ⟨c, p, -, hr, -, rfl⟩
  · obtain ⟨-, hpc, hd, -, -⟩ := scheduler_run hr hs
    exact h.same hd (fun p => by rw [hpc]) (fun p => by rw [hpc]; exact h.valid p) (h.guard.scheduler hi hr hs)
  · exact h.move hlk hso hi hr hn hs
  · refine h.same rfl (fun q => ?_) (fun q => ?_) (h.guard.tick fun _ => Iff.rfl)
    · by_cases hq : q = p
      · subst hq
        simp only [Function.update_self]
        rfl
      · simp only [Function.update_of_ne hq]
    · by_cases hq : q = p
      · subst hq
        simp only [Function.update_self]
        exact h.valid q
      · simp only [Function.update_of_ne hq]
        exact h.valid q

omit [DecidableEq X] in
theorem boot_holds (hlk : Locking code start l ins) (hso : Sound code start l ins tok fresh Q F) {d : D} (hd : Q d) :
    Holds code start l ins tok fresh Q F (boot d start) := by
  have hat : ∀ p k, ((boot d start : State D Λ X C).pc p).at = some k → k = start := fun p k hk =>
    (Option.some.inj hk).symm
  have hno : ∀ t, tok start ≠ some t := fun t ht => by
    rw [(hso.entry (d := d) .start hd).2] at ht
    cases ht
  refine ⟨fun p => Or.inl rfl, ⟨nofun, nofun, fun p _ => hlk.entry .start⟩, hd, fun p k hk => ?_, fun p k t hk ht => ?_,
    fun p q k j t _ hk _ ht => ?_⟩
  · rw [hat p k hk]
    exact (hso.entry .start hd).1
  · rw [hat p k hk] at ht
    exact absurd ht (hno t)
  · rw [hat p k hk] at ht
    exact absurd ht (hno t)

/-- What is sound about the code holds in every state that can be reached. -/
theorem run_holds [Fintype Λ] (hlk : Locking code start l ins) (hso : Sound code start l ins tok fresh Q F)
    {P : State D Λ X C → Act → Prop} {d : D} (hd : Q d) {as : List Act} {u : State D Λ X C}
    (h : Run (Proc.step code) P (boot d start) as u) : Inv u ∧ Holds code start l ins tok fresh Q F u :=
  h.inv (I := fun u => Inv u ∧ Holds code start l ins tok fresh Q F u) ⟨boot_inv d start, boot_holds hlk hso hd⟩
    fun _ _ _ ⟨hi, hh⟩ _ hs => ⟨hi.step hs, hh.step hlk hso hi hs⟩

end Rule

end Xv6.Proc
