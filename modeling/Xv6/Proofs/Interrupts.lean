import Xv6.Spec.Interrupts

/-! The nesting count of a CPU is what the thread running on it holds, and a thread
that lets go of the last thing it holds finds the interrupt flag as it was when it
took the first, on whichever CPU it then runs. -/

namespace Xv6.Interrupts
open Machine

/-- `x` is the number `n`. -/
def Counts (x : Int32) (n : ℕ) : Prop := x.toInt = n

section Counts

variable {x : Int32} {n : ℕ}

theorem Counts.succ (h : Counts x n) (hn : n + 1 < 2 ^ 31) : Counts (x + 1) (n + 1) := by
  have hone : (1 : Int32).toInt = 1 := rfl
  unfold Counts at h ⊢
  rw [Int32.toInt_add, h, hone]
  exact Int.bmod_eq_of_le (by omega) (by omega)

theorem Counts.pred (h : Counts x n) (hn : 0 < n) : Counts (x - 1) (n - 1) := by
  have hone : (1 : Int32).toInt = 1 := rfl
  have hlt := Int32.toInt_lt x
  unfold Counts at h ⊢
  rw [Int32.toInt_sub, h, hone, Int.bmod_eq_of_le (by omega) (by omega)]
  omega

theorem Counts.eq_iff (h : Counts x n) {y : Int32} {m : ℕ} (hy : Counts y m) : x = y ↔ n = m := by
  rw [← Int32.toInt_inj, h, hy, Nat.cast_inj]

theorem Counts.lt_iff (h : Counts x n) {y : Int32} {m : ℕ} (hy : Counts y m) : x < y ↔ n < m := by
  rw [Int32.lt_iff_toInt_lt, h, hy, Nat.cast_lt]

theorem counts_zero : Counts 0 0 := rfl

theorem counts_one : Counts 1 1 := rfl

end Counts

variable {C P L : Type}

theorem State.current_of_some {σ : State C P L} {c : C} {p : P} (h : (σ.cpu c).proc = some p) :
    σ.current c = .proc p := by
  simp only [State.current, h]

theorem State.current_of_none {σ : State C P L} {c : C} (h : (σ.cpu c).proc = none) :
    σ.current c = .sched c := by
  simp only [State.current, h]

theorem State.current_congr {σ τ : State C P L} {c : C} (h : (τ.cpu c).proc = (σ.cpu c).proc) :
    τ.current c = σ.current c := by
  simp only [State.current, h]

theorem State.current_eq_sched {σ : State C P L} {c d : C} (h : σ.current c = .sched d) :
    c = d ∧ (σ.cpu c).proc = none := by
  cases hp : (σ.cpu c).proc with
  | some p => simp [State.current_of_some hp] at h
  | none =>
    rw [State.current_of_none hp] at h
    exact ⟨Tid.sched.inj h, rfl⟩

theorem State.current_eq_proc {σ : State C P L} {c : C} {p : P} (h : σ.current c = .proc p) :
    (σ.cpu c).proc = some p := by
  cases hp : (σ.cpu c).proc with
  | some q =>
    rw [State.current_of_some hp] at h
    rw [Tid.proc.inj h]
  | none => simp [State.current_of_none hp] at h

theorem Thread.count_pos {th : Thread P L} (h : 0 < th.pushes) : 0 < th.count := by
  unfold Thread.count
  omega

theorem Thread.count_eq_zero {th : Thread P L} (h : th.count = 0) : th.locks = [] ∧ th.pushes = 0 := by
  unfold Thread.count at h
  exact ⟨List.eq_nil_of_length_eq_zero (by omega), by omega⟩

/-- None of the panics about the count. -/
structure Quiet (strict : Prop) (o : Outcome (State C P L)) : Prop where
  popOff : o ≠ .panic "pop_off"
  interruptible : o ≠ .panic "pop_off - interruptible"
  locks : strict → o ≠ .panic "sched locks"

theorem quiet_ok {strict : Prop} {σ : State C P L} : Quiet strict (.ok σ) := ⟨nofun, nofun, fun _ => nofun⟩

theorem quiet_blocked {strict : Prop} : Quiet strict (.blocked : Outcome (State C P L)) := ⟨nofun, nofun, fun _ => nofun⟩

section Put

variable [DecidableEq C] [DecidableEq P] {σ : State C P L} {c d : C} {x : Cpu P × Thread P L} {t : Tid C P}

theorem State.put_cpu_self : (σ.put c x).cpu c = x.1 := Function.update_self ..

theorem State.put_cpu_of_ne (hd : d ≠ c) : (σ.put c x).cpu d = σ.cpu d := Function.update_of_ne hd ..

theorem State.put_thread_self : (σ.put c x).thread (σ.current c) = x.2 := Function.update_self ..

theorem State.put_thread_of_ne (ht : t ≠ σ.current c) : (σ.put c x).thread t = σ.thread t :=
  Function.update_of_ne ht ..

theorem State.put_count (hx : (σ.thread (σ.current c)).count ≤ x.2.count) :
    (σ.thread t).count ≤ ((σ.put c x).thread t).count := by
  by_cases ht : t = σ.current c
  · rwa [ht, State.put_thread_self]
  · rw [State.put_thread_of_ne ht]

end Put

variable [DecidableEq P] [DecidableEq L] {strict : Prop}

/-- `todo` never lets go of what is not held, and gives up the CPU with one thing held if
`strict`; if not, sched may panic instead. -/
def Runs (strict : Prop) : List (Op P L) → List (Lock P L) → ℕ → Prop
  | [], _, _ => True
  | .pushOff :: todo, ls, n => Runs strict todo ls (n + 1)
  | .popOff :: todo, ls, n => 0 < n ∧ Runs strict todo ls (n - 1)
  | .take lk :: todo, ls, n => 0 < n ∧ Runs strict todo (lk :: ls) (n - 1)
  | .drop lk :: todo, ls, n => lk ∈ ls ∧ Runs strict todo (ls.erase lk) (n + 1)
  | .sched _ :: .restore :: todo, ls, n => (strict → ls.length + n = 1) ∧ (ls.length + n = 1 → Runs strict todo ls n)
  | .sched _ :: _, _, _ => False
  | .restore :: _, _, _ => False
  | .check _ :: todo, ls, n => ls.length + n = 1 ∧ Runs strict todo ls n

/-- The thread is about to leave sched. -/
structure Thread.Resuming (strict : Prop) (th : Thread P L) (todo : List (Op P L)) : Prop where
  head : th.todo = .restore :: todo
  holds : 0 < th.count
  runs : Runs strict todo th.locks th.pushes
  kept : th.fresh = true ∨ th.intena = th.was

structure Thread.Ok (strict : Prop) (th : Thread P L) : Prop where
  runs : Runs strict th.todo th.locks th.pushes ∨ ∃ todo, th.Resuming strict todo
  stack : ∀ todo ∈ th.stack, Runs strict todo [] 0

structure Good (strict : Prop) (cpu : Cpu P) (th : Thread P L) : Prop where
  noff : Counts cpu.noff th.count
  off : 0 < cpu.noff → cpu.intr = false
  ok : th.Ok strict
  kept : cpu.proc ≠ none → 0 < th.count →
    th.fresh = true ∨ cpu.intena = th.was ∨ ∃ todo, th.Resuming strict todo

/-- Off every CPU, a thread holds the lock of the process it was switched from or to. -/
structure Parked (strict : Prop) (t : Tid C P) (th : Thread P L) : Prop where
  count : th.count = 1
  ok : th.Ok strict
  kept : ∀ p, t = .proc p → th.fresh = true ∨ ∃ todo, th.Resuming strict todo

structure Inv (strict : Prop) (σ : State C P L) : Prop where
  good : ∀ c, Good strict (σ.cpu c) (σ.thread (σ.current c))
  parked : ∀ t, (∀ c, σ.current c ≠ t) → Parked strict t (σ.thread t)
  running : ∀ c p, σ.current c = .proc p → σ.pstate p = .running
  inj : ∀ c d, σ.current c = σ.current d → c = d

theorem Inv.holder {σ : State C P L} (h : Inv strict σ) (f : Lock P L → Option C) : Inv strict { σ with holder := f } :=
  ⟨h.good, h.parked, h.running, h.inj⟩

/-- The CPU a thread is switched to has noff 1, the scheduler's or its own. -/
theorem Parked.good {t : Tid C P} {th : Thread P L} {cpu : Cpu P} (h : Parked strict t th) (hnoff : cpu.noff = 1)
    (hoff : cpu.intr = false) (hp : cpu.proc ≠ none → ∃ p, t = .proc p) : Good strict cpu th := by
  refine ⟨by rw [hnoff, h.count]; exact counts_one, fun _ => hoff, h.ok, fun hne _ => ?_⟩
  obtain ⟨p, rfl⟩ := hp hne
  exact (h.kept p rfl).imp id .inr

section Steps

variable [DecidableEq C] {σ : State C P L} {c : C} {x : Cpu P × Thread P L} {t : Tid C P}

/-- A step of the thread on `c`, after which `t` runs there. -/
theorem Inv.move (h : Inv strict σ) {f : P → PState} (ht : (σ.put c x).current c = t)
    (hgood : Good strict x.1 ((σ.put c x).thread t)) (hfree : ∀ d, d ≠ c → σ.current d ≠ t)
    (hpark : σ.current c ≠ t → Parked strict (σ.current c) x.2)
    (hrun : ∀ d p, (σ.put c x).current d = .proc p → f p = .running) :
    Inv strict { σ.put c x with pstate := f } := by
  have hcur : ∀ {d}, d ≠ c → (σ.put c x).current d = σ.current d :=
    fun hd => State.current_congr (congrArg Cpu.proc (State.put_cpu_of_ne hd))
  refine ⟨fun d => ?_, fun u hu => ?_, hrun, fun d e he => ?_⟩
  · show Good strict ((σ.put c x).cpu d) ((σ.put c x).thread ((σ.put c x).current d))
    by_cases hd : d = c
    · rwa [hd, ht, State.put_cpu_self]
    · rw [hcur hd, State.put_cpu_of_ne hd, State.put_thread_of_ne fun he => hd (h.inj _ _ he)]
      exact h.good d
  · by_cases huc : u = σ.current c
    · subst huc
      rw [State.put_thread_self]
      exact hpark fun he => hu c (ht.trans he.symm)
    · rw [State.put_thread_of_ne huc]
      refine h.parked u fun d hd => ?_
      have hdc : d ≠ c := fun he => huc (he ▸ hd.symm)
      exact hu d ((hcur hdc).trans hd)
  · change (σ.put c x).current d = (σ.put c x).current e at he
    by_cases hd : d = c <;> by_cases hec : e = c
    · rw [hd, hec]
    · rw [hd, ht, hcur hec] at he
      exact absurd he.symm (hfree e hec)
    · rw [hec, ht, hcur hd] at he
      exact absurd he (hfree d hd)
    · rw [hcur hd, hcur hec] at he
      exact h.inj d e he

/-- A step that stays in the thread. -/
theorem Inv.put (h : Inv strict σ) (hproc : x.1.proc = (σ.cpu c).proc) (hx : Good strict x.1 x.2) : Inv strict (σ.put c x) := by
  have hself : (σ.put c x).current c = σ.current c := State.current_congr (by rw [State.put_cpu_self, hproc])
  refine h.move hself (by rwa [State.put_thread_self]) (fun d hd he => hd (h.inj d c he)) (fun hne => absurd rfl hne)
    fun d p hd => h.running d p ?_
  by_cases hdc : d = c
  · rwa [hdc, hself, ← hdc] at hd
  · rwa [State.current_congr (congrArg Cpu.proc (State.put_cpu_of_ne hdc))] at hd

end Steps

/-- What the thread does next, unless it has just come back from the swtch in sched. -/
theorem Thread.Ok.next {th : Thread P L} (h : th.Ok strict) {op : Op P L} {todo : List (Op P L)}
    (htodo : th.todo = op :: todo) (hop : op ≠ .restore) : Runs strict (op :: todo) th.locks th.pushes := by
  rcases h.runs with hr | ⟨todo', hr⟩
  · rwa [htodo] at hr
  · have := hr.head
    rw [htodo] at this
    exact absurd (List.cons.inj this).1 hop

theorem Good.next_kept {cpu : Cpu P} {th : Thread P L} (h : Good strict cpu th) {op : Op P L} {todo : List (Op P L)}
    (htodo : th.todo = op :: todo) (hop : op ≠ .restore) (hp : cpu.proc ≠ none) (hc : 0 < th.count) :
    th.fresh = true ∨ cpu.intena = th.was := by
  rcases h.kept hp hc with hk | hk | ⟨todo', hr⟩
  · exact .inl hk
  · exact .inr hk
  · have := hr.head
    rw [htodo] at this
    exact absurd (List.cons.inj this).1 hop

section Ops

variable {cpu : Cpu P} {th : Thread P L} {todo : List (Op P L)}

theorem Good.pushOff (h : Good strict cpu th) (htodo : th.todo = .pushOff :: todo)
    (hroom : th.count + 1 < 2 ^ 31) :
    Good strict (cpu.pushOff { th with todo }).1 (cpu.pushOff { th with todo }).2 := by
  refine ⟨?_, fun _ => rfl, ⟨.inl (h.ok.next htodo nofun), h.ok.stack⟩, fun hp _ => ?_⟩
  · exact h.noff.succ hroom
  · by_cases hc : th.count = 0
    · -- the outermost push_off: the CPU and the thread note the same flag
      right
      left
      have hn : cpu.noff = 0 := (h.noff.eq_iff counts_zero).mpr hc
      simp only [Cpu.pushOff, if_pos hn]
      exact (if_pos hc).symm
    · have hn : cpu.noff ≠ 0 := mt (h.noff.eq_iff counts_zero).mp hc
      rcases h.next_kept htodo nofun hp (Nat.pos_of_ne_zero hc) with hk | hk
      · exact .inl hk
      · right
        left
        simp only [Cpu.pushOff, if_neg hn, hk]
        exact (if_neg hc).symm

theorem Good.popOff (h : Good strict cpu th) (htodo : th.todo = .popOff :: todo) :
    ∃ x, cpu.popOff { th with todo } = .ok x ∧ Good strict x.1 x.2 ∧ x.1.proc = cpu.proc ∧
      (x.2.count = 0 → cpu.proc ≠ none → th.fresh = false → x.1.intr = th.was) := by
  obtain ⟨hn, hr⟩ := h.ok.next htodo nofun
  have hc := Thread.count_pos hn
  have hnoff := h.noff
  have hoff := h.off ((counts_zero.lt_iff hnoff).mpr hc)
  have hp : ¬ cpu.noff < 1 := mt (hnoff.lt_iff counts_one).mp (by omega)
  refine ⟨_, by rw [Cpu.popOff, if_neg (by simp [hoff]), if_neg hp], ⟨?_, fun hpos => ?_, ⟨.inl hr, h.ok.stack⟩,
    fun hproc hpos => ?_⟩, rfl, fun h1 hproc hf => ?_⟩
  · convert hnoff.pred hc using 1
    simp only [Thread.count]
    omega
  · have : ¬ cpu.noff - 1 = 0 := mt ((hnoff.pred hc).eq_iff counts_zero).mp
      ((counts_zero.lt_iff (hnoff.pred hc)).mp hpos).ne'
    simp [this]
  · rcases h.next_kept htodo nofun hproc hc with hk | hk
    · left
      have : th.count ≠ 1 := by
        simp only [Thread.count] at hpos ⊢
        omega
      simp only [hk, Bool.true_and, decide_eq_true_eq]
      exact this
    · exact .inr (.inl hk)
  · rcases h.next_kept htodo nofun hproc hc with hk | hk
    · simp [hk] at hf
    · have : cpu.noff - 1 = 0 := by
        refine ((hnoff.pred hc).eq_iff counts_zero).mpr ?_
        simp only [Thread.count] at h1 ⊢
        omega
      simp [this, hk]

theorem Good.take (h : Good strict cpu th) {lk : Lock P L} (htodo : th.todo = .take lk :: todo) :
    Good strict cpu { th with todo, locks := lk :: th.locks, pushes := th.pushes - 1 } := by
  obtain ⟨hn, hr⟩ := h.ok.next htodo nofun
  refine ⟨?_, h.off, ⟨.inl hr, h.ok.stack⟩, fun hp _ => ?_⟩
  · convert h.noff using 1
    simp only [Thread.count, List.length_cons]
    omega
  · exact (h.next_kept htodo nofun hp (Thread.count_pos hn)).imp id .inl

theorem Good.drop (h : Good strict cpu th) {lk : Lock P L} (htodo : th.todo = .drop lk :: todo) :
    Good strict cpu { th with todo, locks := th.locks.erase lk, pushes := th.pushes + 1 } := by
  obtain ⟨hmem, hr⟩ := h.ok.next htodo nofun
  have hlen := List.length_pos_of_mem hmem
  refine ⟨?_, h.off, ⟨.inl hr, h.ok.stack⟩, fun hp _ => ?_⟩
  · convert h.noff using 1
    simp only [Thread.count, List.length_erase_of_mem hmem]
    omega
  · refine (h.next_kept htodo nofun hp ?_).imp id .inl
    unfold Thread.count
    omega

theorem Good.restore (h : Good strict cpu th) (htodo : th.todo = .restore :: todo) :
    Good strict { cpu with intena := th.intena } { th with todo } := by
  rcases h.ok.runs with hr | ⟨todo', hr⟩
  · rw [htodo] at hr
    exact hr.elim
  · have he := hr.head
    rw [htodo] at he
    obtain rfl := (List.cons.inj he).2
    exact ⟨h.noff, h.off, ⟨.inl hr.runs, h.ok.stack⟩, fun _ _ => hr.kept.imp id .inl⟩

/-- A thread outside all functions starts one. -/
theorem Good.start (h : Good strict cpu th) (hnil : th.todo = []) (hr : Runs strict todo th.locks th.pushes) :
    Good strict cpu { th with todo } := by
  refine ⟨h.noff, h.off, ⟨.inl hr, h.ok.stack⟩, fun hp hc => ?_⟩
  rcases h.kept hp hc with hk | hk | ⟨todo', hk⟩
  · exact .inl hk
  · exact .inr (.inl hk)
  · have := hk.head
    rw [hnil] at this
    cases this

end Ops

section Switch

variable [DecidableEq C] {σ : State C P L} {c : C} {x : Cpu P × Thread P L} {p : P}

/-- sched's swtch: the scheduler finds the count as it left it. -/
theorem Inv.leave (h : Inv strict σ) {st : PState} (hp : (σ.cpu c).proc = some p) (hnone : x.1.proc = none)
    (hnoff : x.1.noff = 1) (hoff : x.1.intr = false) (hx : Parked strict (.proc p : Tid C P) x.2) :
    Inv strict { σ.put c x with pstate := Function.update σ.pstate p st } := by
  have hcur := State.current_of_some hp
  have hself : (σ.put c x).current c = .sched c := State.current_of_none (by rw [State.put_cpu_self, hnone])
  have hfree : ∀ d, σ.current d ≠ .sched c := fun d hd => by
    obtain ⟨rfl, hn⟩ := State.current_eq_sched hd
    rw [hp] at hn
    cases hn
  refine h.move hself ?_ (fun d _ => hfree d) (fun _ => by rwa [hcur]) fun d q hd => ?_
  · rw [State.put_thread_of_ne (hfree c).symm]
    exact (h.parked _ hfree).good hnoff hoff fun hne => absurd hnone hne
  · have hdc : d ≠ c := by
      rintro rfl
      rw [hself] at hd
      cases hd
    rw [State.current_congr (congrArg Cpu.proc (State.put_cpu_of_ne hdc))] at hd
    have hqp : q ≠ p := fun he => hdc (h.inj d c (by rw [hd, hcur, he]))
    rw [Function.update_of_ne hqp]
    exact h.running d q hd

/-- The swtch in scheduler: the process finds the count it left with. -/
theorem Inv.enter (h : Inv strict σ) (hp : (σ.cpu c).proc = none) (hst : σ.pstate p = .runnable)
    (hsome : x.1.proc = some p) (hnoff : x.1.noff = 1) (hoff : x.1.intr = false)
    (hx : Parked strict (.sched c : Tid C P) x.2) :
    Inv strict { σ.put c x with pstate := Function.update σ.pstate p .running } := by
  have hcur := State.current_of_none hp
  have hfree : ∀ d, σ.current d ≠ .proc p := fun d hd => by
    rw [h.running d p hd] at hst
    cases hst
  refine h.move (State.current_of_some (by rw [State.put_cpu_self, hsome])) ?_ (fun d _ => hfree d)
    (fun _ => by rwa [hcur]) fun d q hd => ?_
  · rw [State.put_thread_of_ne (hfree c).symm]
    exact (h.parked _ hfree).good hnoff hoff fun _ => ⟨p, rfl⟩
  · rw [Function.update_apply]
    split_ifs with hqp
    · rfl
    · by_cases hdc : d = c
      · have := State.current_eq_proc hd
        rw [hdc, State.put_cpu_self, hsome] at this
        exact absurd (Option.some.inj this).symm hqp
      · rw [State.current_congr (congrArg Cpu.proc (State.put_cpu_of_ne hdc))] at hd
        exact h.running d q hd

end Switch

/-- A function called as it may be lets go only of what is held. -/
theorem runs_code {σ : State C P L} {c : C} {k : Call P L} {proc : Option P} {todo : List (Op P L)} (hD : Disciplined σ (.call c k))
    (hP : strict → Proper σ (.call c k)) (hk : k.code proc = some todo) :
    Runs strict todo (σ.thread (σ.current c)).locks (σ.thread (σ.current c)).pushes := by
  cases k with
  | acquire lk =>
    obtain rfl := Option.some.inj hk
    exact ⟨Nat.succ_pos _, trivial⟩
  | release lk =>
    obtain rfl := Option.some.inj hk
    exact ⟨hD, Nat.succ_pos _, trivial⟩
  | pushOff =>
    obtain rfl := Option.some.inj hk
    exact trivial
  | popOff =>
    obtain rfl := Option.some.inj hk
    exact ⟨hD, trivial⟩
  | sleep lk =>
    cases proc with
    | none => cases hk
    | some p =>
      obtain rfl := Option.some.inj hk
      have hlocks : (σ.thread (σ.current c)).locks = [lk] := hD
      rw [hlocks]
      by_cases he : lk = .proc p
      · subst he
        simpa [sleep, acquire, release, Runs] using fun hs => (hP hs).2
      · simpa [sleep, acquire, release, Runs, Ne.symm he] using fun hs => (hP hs).2
  | yield =>
    cases proc with
    | none => cases hk
    | some p =>
      obtain rfl := Option.some.inj hk
      have hlocks : (σ.thread (σ.current c)).locks = [] := hD
      rw [hlocks]
      simpa [yield, acquire, release, Runs] using fun hs => (hP hs).2
  | visit p =>
    cases proc with
    | some q => cases hk
    | none =>
      obtain rfl := Option.some.inj hk
      obtain ⟨hlocks, hpushes⟩ := Thread.count_eq_zero hD
      rw [hlocks, hpushes]
      simp [scheduler, acquire, release, Runs]

/-- Between functions, a thread that holds nothing may change the flag. -/
theorem Good.flag {cpu : Cpu P} {th th' : Thread P L} (h : Good strict cpu th) (on : Bool) (hc : th.count = 0)
    (hc' : th'.count = th.count) (hok : th'.Ok strict) : Good strict { cpu with intr := on } th' := by
  refine ⟨by rw [hc']; exact h.noff, fun hpos => ?_, hok, fun _ hpos => ?_⟩
  · have := (counts_zero.lt_iff h.noff).mp hpos
    omega
  · omega

theorem inv_boot : Inv strict (boot : State C P L) := by
  refine ⟨fun c => ⟨counts_zero, nofun, ⟨.inl trivial, nofun⟩, fun hne => absurd rfl hne⟩, fun t ht => ?_, nofun,
    fun c d he => Tid.sched.inj he⟩
  cases t with
  | sched c => exact absurd rfl (ht c)
  | proc p => exact ⟨rfl, ⟨.inl ⟨.head _, Nat.succ_pos _, trivial⟩, nofun⟩, fun _ _ => .inl rfl⟩

section Machine

variable {σ τ : State C P L} {a : Act C P L}

/-- The invariant holds after the step, no panic about the count is reached, and only pop_off lets go of anything. -/
structure Keeps (strict : Prop) (σ : State C P L) (a : Act C P L) (o : Outcome (State C P L)) : Prop where
  inv : ∀ τ, o = .ok τ → Inv strict τ
  quiet : Quiet strict o
  pops : ∀ τ t, o = .ok τ → (τ.thread t).count < (σ.thread t).count →
    ∃ c todo, a = .step c ∧ σ.current c = t ∧ (σ.thread t).todo = .popOff :: todo

theorem keeps_ok (h : Inv strict τ) (hcount : ∀ t, (σ.thread t).count ≤ (τ.thread t).count) : Keeps strict σ a (.ok τ) := by
  refine ⟨fun τ' he => ?_, quiet_ok, fun τ' t he hlt => ?_⟩
  · exact Outcome.ok.inj he ▸ h
  · rw [← Outcome.ok.inj he] at hlt
    exact absurd (hcount t) (Nat.not_le.mpr hlt)

theorem keeps_blocked : Keeps strict σ a .blocked := ⟨nofun, quiet_blocked, nofun⟩

theorem keeps_panic {msg : String} (h : Quiet strict (.panic msg : Outcome (State C P L))) : Keeps strict σ a (.panic msg) :=
  ⟨nofun, h, nofun⟩

variable [DecidableEq C]

theorem Inv.keeps_put (h : Inv strict σ) {c : C} {x : Cpu P × Thread P L} {f : Lock P L → Option C}
    (hproc : x.1.proc = (σ.cpu c).proc) (hx : Good strict x.1 x.2) (hcount : (σ.thread (σ.current c)).count ≤ x.2.count) :
    Keeps strict σ a (.ok { σ.put c x with holder := f }) :=
  keeps_ok ((h.put hproc hx).holder f) fun _ => State.put_count hcount

theorem Inv.sched_keeps (h : Inv strict σ) {c : C} {st : PState} {todo : List (Op P L)}
    (htodo : (σ.thread (σ.current c)).todo = .sched st :: todo) :
    Keeps strict σ a ((Op.sched st).exec c σ { σ.thread (σ.current c) with todo }) := by
  have hg := h.good c
  obtain ⟨todo', rfl, hstrict, hruns⟩ : ∃ todo', todo = .restore :: todo' ∧
      (strict → (σ.thread (σ.current c)).count = 1) ∧
      ((σ.thread (σ.current c)).count = 1 →
        Runs strict todo' (σ.thread (σ.current c)).locks (σ.thread (σ.current c)).pushes) := by
    match todo, hg.ok.next htodo nofun with
    | .restore :: todo', hr => exact ⟨todo', rfl, hr⟩
  simp only [Op.exec]
  split
  · exact keeps_blocked
  · next p hp =>
    split_ifs with hh hn hst hi
    · exact keeps_panic ⟨by simp, by simp, by simp⟩
    · exact keeps_panic ⟨by simp, by simp, fun hs => absurd ((hg.noff.eq_iff counts_one).mpr (hstrict hs)) hn⟩
    · exact keeps_panic ⟨by simp, by simp, by simp⟩
    · exact keeps_panic ⟨by simp, by simp, by simp⟩
    · have hone := (hg.noff.eq_iff counts_one).mp (not_not.mp hn)
      have hkept := hg.next_kept htodo nofun (by rw [hp]; nofun) (by omega)
      have hres : ({ σ.thread (σ.current c) with
          todo := .restore :: todo', intena := (σ.cpu c).intena } : Thread P L).Resuming strict todo' :=
        ⟨rfl, hone.ge, hruns hone, hkept⟩
      exact keeps_ok (h.leave hp rfl (not_not.mp hn) (Bool.eq_false_of_not_eq_true hi)
        ⟨hone, ⟨.inr ⟨_, hres⟩, hg.ok.stack⟩, fun _ _ => .inr ⟨_, hres⟩⟩) fun _ => State.put_count le_rfl

theorem Inv.exec (h : Inv strict σ) {c : C} {op : Op P L} {todo : List (Op P L)}
    (htodo : (σ.thread (σ.current c)).todo = op :: todo)
    (hroom : op = .pushOff → (σ.thread (σ.current c)).count + 1 < 2 ^ 31) :
    Keeps strict σ (.step c) (op.exec c σ { σ.thread (σ.current c) with todo }) := by
  have hg := h.good c
  cases op with
  | pushOff => exact h.keeps_put rfl (hg.pushOff htodo (hroom rfl)) (Nat.le_succ _)
  | popOff =>
    obtain ⟨x, hx, hgood, hproc, -⟩ := hg.popOff htodo
    simp only [Op.exec, hx, Outcome.map]
    refine ⟨fun τ hτ => Outcome.ok.inj hτ ▸ h.put hproc hgood, quiet_ok, fun τ t hτ hlt => ⟨c, todo, rfl, ?_⟩⟩
    by_cases ht : t = σ.current c
    · exact ⟨ht.symm, ht ▸ htodo⟩
    · rw [← Outcome.ok.inj hτ, State.put_thread_of_ne ht] at hlt
      exact absurd hlt (lt_irrefl _)
  | take lk =>
    obtain ⟨hpos, -⟩ := hg.ok.next htodo (by simp)
    simp only [Op.exec]
    split
    · split_ifs
      · exact keeps_panic ⟨by simp, by simp, by simp⟩
      · exact keeps_blocked
    · refine h.keeps_put rfl (hg.take htodo) ?_
      simp only [Thread.count, List.length_cons]
      omega
  | drop lk =>
    obtain ⟨hmem, -⟩ := hg.ok.next htodo (by simp)
    simp only [Op.exec]
    split_ifs
    · refine h.keeps_put rfl (hg.drop htodo) ?_
      simp only [Thread.count, List.length_erase_of_mem hmem]
      omega
    · exact keeps_panic ⟨by simp, by simp, by simp⟩
  | sched st => exact h.sched_keeps htodo
  | restore => exact h.keeps_put rfl (hg.restore htodo) le_rfl
  | check p =>
    obtain ⟨hone, hruns⟩ := hg.ok.next htodo (by simp)
    have hn : (σ.cpu c).noff = 1 := (hg.noff.eq_iff counts_one).mpr hone
    simp only [Op.exec]
    split_ifs with hp hst
    · exact keeps_ok (h.enter hp hst rfl hn (hg.off (by rw [hn]; decide)) ⟨hone, ⟨.inl hruns, hg.ok.stack⟩, by simp⟩)
        fun _ => State.put_count le_rfl
    · exact h.keeps_put rfl ⟨hg.noff, hg.off, ⟨.inl hruns, hg.ok.stack⟩, fun hne => absurd hp hne⟩ le_rfl
    · exact keeps_blocked

theorem Inv.step (h : Inv strict σ) (hD : Disciplined σ a) (hP : strict → Proper σ a) :
    Keeps strict σ a (step a σ) := by
  cases a with
  | step c =>
    simp only [Interrupts.step]
    split
    · exact keeps_blocked
    · next op todo htodo =>
      refine h.exec htodo fun hop => hD ?_
      rw [htodo, hop]
      rfl
  | call c k =>
    simp only [Interrupts.step]
    split
    · next todo hnil hk => exact h.keeps_put rfl ((h.good c).start hnil (runs_code hD hP hk)) le_rfl
    · exact keeps_blocked
  | intr c on =>
    simp only [Interrupts.step]
    split_ifs
    · exact h.keeps_put rfl ((h.good c).flag on hD rfl (h.good c).ok) le_rfl
    · exact keeps_blocked
  | trap c =>
    have hg := h.good c
    simp only [Interrupts.step]
    split_ifs with hi
    · have hc : (σ.thread (σ.current c)).count = 0 := by
        by_contra hc
        rw [hg.off ((counts_zero.lt_iff hg.noff).mpr (Nat.pos_of_ne_zero hc))] at hi
        cases hi
      obtain ⟨hlocks, hpushes⟩ := Thread.count_eq_zero hc
      refine h.keeps_put rfl (hg.flag false hc rfl ⟨.inl trivial, fun todo hmem => ?_⟩) le_rfl
      rcases List.mem_cons.mp hmem with rfl | hmem
      · rcases hg.ok.runs with hr | ⟨todo', hr⟩
        · rwa [hlocks, hpushes] at hr
        · have := hr.holds
          omega
      · exact hg.ok.stack todo hmem
    · exact keeps_blocked
  | sret c =>
    have hg := h.good c
    simp only [Interrupts.step]
    split
    · next todo stack hnil hstack =>
      obtain ⟨hlocks, hpushes⟩ := Thread.count_eq_zero hD
      have hmem := hg.ok.stack
      rw [hstack] at hmem
      refine h.keeps_put rfl (hg.flag true hD rfl ⟨.inl ?_, fun r hr => hmem r (.tail _ hr)⟩) le_rfl
      simpa only [hlocks, hpushes] using hmem todo (.head _)
    · exact keeps_blocked
  | wake p =>
    simp only [Interrupts.step]
    split_ifs with hst
    · refine keeps_ok ⟨h.good, h.parked, fun c q hq => ?_, h.inj⟩ fun _ => le_rfl
      have hqp : q ≠ p := by
        rintro rfl
        rw [h.running c q hq] at hst
        cases hst
      exact (Function.update_of_ne hqp ..).trans (h.running c q hq)
    · exact keeps_blocked

/-- In every run, a CPU's noff counts the locks and push_offs of the thread running on it, interrupts are off
while there are any, and pop_off never panics; sched does not find noff other than 1 if no thread sleeps or yields
between a push_off and its pop_off. A process that lets go of the last finds the interrupt flag as it was when
it took the first, except at the end of the release it starts with. -/
theorem interrupts_restored {acts : List (Act C P L)} (hrun : Run step Disciplined boot acts σ) :
    (∀ c, (σ.cpu c).noff.toInt = (σ.thread (σ.current c)).locks.length + (σ.thread (σ.current c)).pushes) ∧
      (∀ c, 0 < (σ.cpu c).noff → (σ.cpu c).intr = false) ∧
      (∀ a, Disciplined σ a → step a σ ≠ .panic "pop_off" ∧ step a σ ≠ .panic "pop_off - interruptible") ∧
      (Run step Proper boot acts σ → ∀ a, Proper σ a → step a σ ≠ .panic "sched locks") ∧
      ∀ a τ c p, Disciplined σ a → step a σ = .ok τ → (σ.cpu c).proc = some p → (σ.thread (.proc p)).fresh = false →
        0 < (σ.thread (.proc p)).count → (τ.thread (.proc p)).count = 0 →
        (τ.cpu c).intr = (σ.thread (.proc p)).was := by
  have h : Inv False σ := hrun.inv inv_boot fun _ _ _ hI hD => (hI.step hD False.elim).inv _
  refine ⟨fun c => (h.good c).noff, fun c => (h.good c).off, fun a hD => ?_, fun hproper a hP => ?_,
    fun a τ c p hD hs hp hf hpos hz => ?_⟩
  · obtain ⟨h1, h2, -⟩ := (h.step hD False.elim).quiet
    exact ⟨h1, h2⟩
  · have h' : Inv True σ := hproper.inv inv_boot fun _ _ _ hI hP => (hI.step hP.1 fun _ => hP).inv _
    exact (h'.step hP.1 fun _ => hP).quiet.locks trivial
  · obtain ⟨d, todo, rfl, hcur, htodo⟩ := (h.step hD False.elim).pops τ _ hs (hz ▸ hpos)
    obtain rfl := h.inj d c (hcur.trans (State.current_of_some hp).symm)
    rw [← hcur] at htodo hf hz ⊢
    obtain ⟨x, hx, -, -, hintr⟩ := (h.good d).popOff htodo
    simp only [step, htodo, Op.exec, hx, Outcome.map] at hs
    obtain rfl := Outcome.ok.inj hs
    rw [State.put_thread_self] at hz
    rw [State.put_cpu_self]
    exact hintr hz (by rw [hp]; simp) hf

end Machine

/-- A process starts on CPU 0, enables interrupts, yields there and is resumed on CPU 1, up to its last pop_off. -/
def migration : List (Act (Fin 2) (Fin 1) Empty) :=
  [.wake 0, .call 0 (.visit 0), .step 0, .step 0, .step 0, .step 0, .step 0, .intr 0 true,
    .call 0 .yield, .step 0, .step 0, .step 0, .step 0, .step 0,
    .call 1 (.visit 0), .step 1, .step 1, .step 1, .step 1, .step 1]

theorem migration_ok : (execIf step (fun σ a => decide (Proper σ a)) migration boot).Sat fun σ =>
    (σ.cpu 1).intr = false ∧ (σ.cpu 1).proc = some 0 ∧ (σ.thread (.proc 0)).fresh = false ∧
      0 < (σ.thread (.proc 0)).count ∧ (σ.thread (.proc 0)).was = true ∧
      Disciplined σ (.step 1) ∧ (step (.step 1) σ).Sat fun τ => (τ.thread (.proc 0)).count = 0 := by
  decide +kernel

theorem interrupts_restored_migration : ∃ σ τ, Run step Proper boot migration σ ∧
    (σ.cpu 1).intr = false ∧ step (.step 1) σ = .ok τ ∧ (τ.cpu 1).intr = true := by
  obtain ⟨σ, hσ, hoff, hproc, hfresh, hpos, hwas, hroom, hnext⟩ := migration_ok.ok
  obtain ⟨τ, hstep, hzero⟩ := hnext.ok
  have hrun : Run step Proper boot migration σ := (run_of_execIf hσ).mono fun _ _ => of_decide_eq_true
  obtain ⟨-, -, -, -, hintr⟩ := interrupts_restored (hrun.mono fun _ _ => And.left)
  exact ⟨σ, τ, hrun, hoff, hstep, (hintr _ τ 1 0 hroom hstep hproc hfresh hpos hzero).trans hwas⟩

/-- yield after a push_off, with no lock held: sched finds noff 2. -/
theorem sched_locks_reached : ∃ (acts : List (Act (Fin 1) (Fin 1) Empty)) (σ : State (Fin 1) (Fin 1) Empty),
    Run step Disciplined boot acts σ ∧ step (.step 0) σ = .panic "sched locks" := by
  have hexec : (execIf step (fun σ a => decide (Disciplined σ a))
      [.wake 0, .call 0 (.visit 0), .step 0, .step 0, .step 0, .step 0, .step 0,
        .call 0 .pushOff, .step 0, .call 0 .yield, .step 0, .step 0] boot).Sat fun σ : State (Fin 1) (Fin 1) Empty =>
      step (.step 0) σ = .panic "sched locks" := by
    decide +kernel
  obtain ⟨σ, hσ, hpanic⟩ := hexec.ok
  exact ⟨_, σ, (run_of_execIf hσ).mono fun _ _ => of_decide_eq_true, hpanic⟩

end Xv6.Interrupts
