import Xv6.Sanity.Pipe
import Xv6.Sanity.Wakeup

/-! When a process that sleeps on a pipe is woken. -/

namespace Xv6.Pipe

open Machine Proc

/-- A reader need not sleep. -/
def Readable (d : Pipe) : Prop := ¬ d.empty ∨ d.writeopen = false

/-- How the code stands to the readers that sleep on `&pi->nread`. -/
def Point.toReaders : Point → Sec
  | .writeTest _ _ _ _ owed | .writeKilled _ _ _ _ owed | .writePut _ _ _ _ owed | .writeFull _ _ _ _ owed
  | .writeWake _ owed => if owed then .dirty else .clean
  | .writeSleep .. | .writeDone _ | .closeDone true => .paid
  | .readKilled _ | .readSleep _ | .readFail => .idle
  | .writeFail _ | .readTest _ | .readCopy .. | .readWake .. | .readDone _ | .closeSet _ | .closeWake false
  | .closeDone false => .clean
  | .closeWake true => .dirty
  | _ => .out

/-- How it stands to the writers that sleep on `&pi->nwrite` because there is no room. -/
def Point.toRoom : Point → Sec
  | .writeFull .. | .writeSleep .. => .idle
  | .readCopy _ _ i => if 0 < i then .dirty else .clean
  | .readWake _ took => if took then .dirty else .clean
  | .readDone _ | .closeDone false => .paid
  | .writeTest .. | .writeKilled .. | .writePut .. | .writeWake .. | .writeDone _ | .writeFail _ | .readTest _
  | .readKilled _ | .readSleep _ | .readFail | .closeSet _ | .closeWake _ | .closeDone true => .clean
  | _ => .out

/-- How it stands to them in that there is still somebody to read. -/
def Point.toOpen : Point → Sec
  | .writeKilled .. | .writePut .. | .writeFull .. | .writeSleep .. | .writeFail true => .idle
  | .closeWake false => .dirty
  | .readDone _ | .closeDone false => .paid
  | .writeTest .. | .writeWake .. | .writeDone _ | .writeFail false | .readTest _ | .readKilled _ | .readSleep _
  | .readCopy .. | .readWake .. | .readFail | .closeSet _ | .closeWake true | .closeDone true => .clean
  | _ => .out

/-- The step is not one by which a `pipewrite` gives up, because the read end is closed or the process
has been killed, without a `wakeup` for the bytes it has put in. -/
def announces (σ : State Pipe Unit Addr Point) : Act → Bool
  | .step c _ =>
    match (σ.cpu c).run with
    | some p =>
      match σ.pc p with
      | .run (.writeTest _ _ n i true) => !(decide ((i : ℤ) < n) && !σ.data.readopen)
      | .killed2 (.user _ (.writePut _ _ _ _ true)) => !(σ.proc p).killed
      | _ => true
    | none => true
  | .tick _ => true

variable {script : ℕ → Call} {d d' : Pipe}

/-- A step of the code on the data takes it from `s` to `s'`, and the condition from `c` to `c'`. -/
def Stands (s s' : Sec) (c c' : Prop) : Prop :=
  (s' = .out ↔ s = .out) ∧ (s' = .out ∨ s' = .clean → c' → c) ∧ (s' = .idle → ¬ c') ∧ (s' = .paid → s = .paid)

/-- A step that changes neither how the code stands nor, for the worse, the condition. -/
theorem quiet_step {s s' : Sec} {c c' : Prop} (hs : s' = s) (hc : c' → c) (hidle : s = .idle → ¬ c) : Stands s s' c c' := by
  subst hs
  exact ⟨Iff.rfl, fun _ => hc, fun hi hc' => hidle hi (hc hc'), id⟩

/-- A step inside the lock that leaves the code owing a `wakeup`. -/
theorem owing_step {s s' : Sec} {c c' : Prop} (hs : s ≠ .out) (hs' : s' = .dirty) : Stands s s' c c' := by
  subst hs'
  exact ⟨⟨nofun, fun h => absurd h hs⟩, fun h => h.elim nofun nofun, nofun, nofun⟩

/-- A step inside the lock that does not make the condition true. -/
theorem clean_step {s s' : Sec} {c c' : Prop} (hs : s ≠ .out) (hs' : s' = .clean) (hc : c' → c) : Stands s s' c c' := by
  subst hs'
  exact ⟨⟨nofun, fun h => absurd h hs⟩, fun _ => hc, nofun, nofun⟩

/-- A step inside the lock after which the condition is false. -/
theorem idle_step {s s' : Sec} {c c' : Prop} (hs : s ≠ .out) (hs' : s' = .idle) (hc : ¬ c') : Stands s s' c c' := by
  subst hs'
  exact ⟨⟨nofun, fun h => absurd h hs⟩, fun _ h => absurd h hc, fun _ => hc, nofun⟩

theorem readers_discipline : Discipline (code script) () Addr.nread Readable Point.toReaders where
  act := by
    intro k f n d d' k' hk hf hidle
    cases acts_of_act hk hf with
    | @closed w mem n i owed hopen => exact clean_step (by cases owed <;> exact nofun) rfl id
    | @put w mem n i owed ch hroom hm => exact owing_step (by cases owed <;> exact nofun) rfl
    | isEmpty hempty hopen =>
      refine idle_step nofun rfl fun hr => hr.elim (fun h => h hempty) fun h => ?_
      rw [hopen] at h
      cases h
    | lose hsome | take hsome => exact quiet_step rfl (fun _ => Or.inl hsome) hidle
    | closeWrite => exact owing_step nofun rfl
    | _ => exact quiet_step rfl id hidle
  acquire := by intro k l' k' hk; cases k <;> cases hk <;> exact ⟨rfl, rfl⟩
  release := by
    intro k l' k' hk
    cases k with
    | closeDone writable => cases hk; cases writable <;> exact ⟨nofun, nofun, rfl⟩
    | _ => cases hk <;> exact ⟨nofun, nofun, rfl⟩
  sleep := by
    intro k y l' k' hk
    cases k with
    | writeSleep w mem n i => cases hk; exact ⟨⟨nofun, nofun, rfl⟩, nofun⟩
    | readSleep n => cases hk; exact ⟨⟨nofun, nofun, rfl⟩, fun _ => ⟨rfl, rfl⟩⟩
    | _ => cases hk
  wakeup := by
    intro k y k' hk
    cases k with
    | writeFull w mem n i owed => cases hk; cases owed <;> exact Or.inr ⟨nofun, rfl⟩
    | writeWake i owed => cases hk; cases owed <;> exact Or.inr ⟨nofun, rfl⟩
    | readWake i took => cases hk; exact rfl
    | closeWake writable =>
      cases hk
      cases writable
      · exact rfl
      · exact Or.inr ⟨nofun, rfl⟩
    | _ => cases hk
  killed := by intro k yes no hk; cases k <;> cases hk <;> rfl
  setkilled := by intro k k' hk; cases k <;> cases hk
  kkill := by intro k pid k' hk; cases k <;> cases hk; exact ⟨rfl, fun _ => rfl⟩
  kfork := by intro k k' child hk; cases k <;> cases hk; exact ⟨rfl, rfl, fun _ => rfl⟩
  kexit := by intro k status hk; cases k <;> cases hk; rfl
  kwait := by intro k k' hk; cases k <;> cases hk; exact ⟨rfl, fun _ => rfl⟩

theorem room_discipline : Discipline (code script) () Addr.nwrite (fun d => ¬ d.full) Point.toRoom where
  act := by
    intro k f n d d' k' hk hf hidle
    cases acts_of_act hk hf with
    | isFull hfull => exact idle_step nofun rfl fun h => h hfull
    | put hroom hm => exact quiet_step rfl (fun _ => hroom) hidle
    | @allRead r n i => exact quiet_step (by simp [Point.toRoom]) id hidle
    | @lose r n i hsome => exact owing_step (by by_cases hi : 0 < i <;> simp [Point.toRoom, hi]) rfl
    | @take r n i hsome => exact owing_step (by by_cases hi : 0 < i <;> simp [Point.toRoom, hi]) (by simp [Point.toRoom])
    | _ => exact quiet_step rfl id hidle
  acquire := by intro k l' k' hk; cases k <;> cases hk <;> exact ⟨rfl, rfl⟩
  release := by
    intro k l' k' hk
    cases k with
    | closeDone writable => cases hk; cases writable <;> exact ⟨nofun, nofun, rfl⟩
    | _ => cases hk <;> exact ⟨nofun, nofun, rfl⟩
  sleep := by
    intro k y l' k' hk
    cases k with
    | writeSleep w mem n i => cases hk; exact ⟨⟨nofun, nofun, rfl⟩, fun _ => ⟨rfl, rfl⟩⟩
    | readSleep n => cases hk; exact ⟨⟨nofun, nofun, rfl⟩, nofun⟩
    | _ => cases hk
  wakeup := by
    intro k y k' hk
    cases k with
    | writeFull w mem n i owed => cases hk; exact rfl
    | writeWake i owed => cases hk; exact rfl
    | readWake i took => cases hk; cases took <;> exact Or.inr ⟨nofun, rfl⟩
    | closeWake writable =>
      cases hk
      cases writable
      · exact Or.inr ⟨nofun, rfl⟩
      · exact rfl
    | _ => cases hk
  killed := by intro k yes no hk; cases k <;> cases hk <;> rfl
  setkilled := by intro k k' hk; cases k <;> cases hk
  kkill := by intro k pid k' hk; cases k <;> cases hk; exact ⟨rfl, fun _ => rfl⟩
  kfork := by intro k k' child hk; cases k <;> cases hk; exact ⟨rfl, rfl, fun _ => rfl⟩
  kexit := by intro k status hk; cases k <;> cases hk; rfl
  kwait := by intro k k' hk; cases k <;> cases hk; exact ⟨rfl, fun _ => rfl⟩

theorem open_discipline :
    Discipline (code script) () Addr.nwrite (fun d => d.readopen = false) Point.toOpen where
  act := by
    intro k f n d d' k' hk hf hidle
    cases acts_of_act hk hf with
    | goOn hopen =>
      refine idle_step nofun rfl fun h => ?_
      rw [hopen] at h
      cases h
    | noByte => exact clean_step nofun rfl id
    | put hroom hm => exact clean_step nofun rfl id
    | closeRead => exact owing_step nofun rfl
    | _ => exact quiet_step rfl id hidle
  acquire := by intro k l' k' hk; cases k <;> cases hk <;> exact ⟨rfl, rfl⟩
  release := by
    intro k l' k' hk
    cases k with
    | writeFail killed => cases hk; cases killed <;> exact ⟨nofun, nofun, rfl⟩
    | closeDone writable => cases hk; cases writable <;> exact ⟨nofun, nofun, rfl⟩
    | _ => cases hk <;> exact ⟨nofun, nofun, rfl⟩
  sleep := by
    intro k y l' k' hk
    cases k with
    | writeSleep w mem n i => cases hk; exact ⟨⟨nofun, nofun, rfl⟩, fun _ => ⟨rfl, rfl⟩⟩
    | readSleep n => cases hk; exact ⟨⟨nofun, nofun, rfl⟩, nofun⟩
    | _ => cases hk
  wakeup := by
    intro k y k' hk
    cases k with
    | writeFull w mem n i owed => cases hk; exact rfl
    | writeWake i owed => cases hk; exact rfl
    | readWake i took => cases hk; exact Or.inr ⟨nofun, rfl⟩
    | closeWake writable =>
      cases hk
      cases writable
      · exact Or.inr ⟨nofun, rfl⟩
      · exact rfl
    | _ => cases hk
  killed := by intro k yes no hk; cases k <;> cases hk <;> rfl
  setkilled := by intro k k' hk; cases k <;> cases hk
  kkill := by intro k pid k' hk; cases k <;> cases hk; exact ⟨rfl, fun _ => rfl⟩
  kfork := by intro k k' child hk; cases k <;> cases hk; exact ⟨rfl, rfl, fun _ => rfl⟩
  kexit := by intro k status hk; cases k <;> cases hk; rfl
  kwait := by intro k k' hk; cases k <;> cases hk; exact ⟨rfl, fun _ => rfl⟩

theorem room_honest : Honest (code script) (fun d => ¬ d.full) Point.toRoom where
  act := by
    intro k f n d d' k' hk hf hdirty hclean
    cases acts_of_act hk hf with
    | @allRead r n i =>
      by_cases hi : 0 < i
      · simp [Point.toRoom, hi] at hclean
      · simp [Point.toRoom, hi] at hdirty
    | take hsome => simp [Point.toRoom] at hclean
    | lose hsome => cases hclean
    | _ => cases hdirty
  killed := by intro k yes no hk; cases k <;> cases hk <;> rfl

theorem open_honest : Honest (code script) (fun d => d.readopen = false) Point.toOpen where
  act := by
    intro k f n d d' k' hk hf hdirty hclean
    cases acts_of_act hk hf <;> cases hdirty
  killed := by intro k yes no hk; cases k <;> cases hk <;> rfl

section Announced

variable {σ : State Pipe Unit Addr Point} {c : CpuId} {p : Slot} {n : ℕ}

/-- The one way in which the code forgets the readers. -/
theorem attentive_of_announces (hw : Wake (code script) () Addr.nread Point.toReaders Readable σ)
    (h : announces σ (.step c n) = true) (hrun : (σ.cpu c).run = some p) :
    Attentive (code script) Readable Point.toReaders σ p n where
  act := by
    intro k f d k' hpc hk hf hdirty hclean
    cases acts_of_act hk hf with
    | @closed w mem n i owed hopen =>
      cases owed with
      | false => cases hdirty
      | true =>
        exfalso
        cases hk
        simp only [hopen, Bool.false_eq_true, if_false] at hf
        split_ifs at hf with hi
        · simp [announces, hrun, hpc, hi, hopen] at h
        · cases hf
    | @goOn w mem n i owed hopen =>
      cases owed with
      | false => cases hdirty
      | true => cases hclean
    | @allWritten w mem n i owed =>
      cases owed with
      | false => cases hdirty
      | true => cases hclean
    | @isFull w mem n i owed hfull =>
      cases owed with
      | false => cases hdirty
      | true => cases hclean
    | @noByte w mem n i owed =>
      cases owed with
      | false => cases hdirty
      | true => cases hclean
    | put hroom hm => cases hclean
    | _ => cases hdirty
  killed := by
    intro yes no hpc hkilled
    have hgood := hw.good p
    rw [hpc] at hgood
    obtain ⟨k, hk⟩ := hgood
    cases k with
    | writeKilled w mem n i owed =>
      cases hk
      cases owed with
      | false => rfl
      | true =>
        simp only [announces, hrun, hpc, hkilled] at h
        cases h
    | readKilled n =>
      cases hk
      rfl
    | _ => cases hk

end Announced

/-- **No wakeup is lost in a pipe**, as long as no `pipewrite` gives up with bytes in the pipe that it has
not announced: whenever `pi->lock` is free, no process sleeps on `&pi->nread` while there are bytes
or the write end is closed, and none on `&pi->nwrite` while there is room or the read end is closed. -/
theorem pipe_wakes (script : ℕ → Call) (data : ℕ → UInt8) (as : List Act) (u : State Pipe Unit Addr Point)
    (h : Run (step (code script)) (fun σ a => announces σ a = true) (start data) as u)
    (hfree : u.lock (.user ()) = none) (p : Slot) (hsl : (u.proc p).state = .sleeping) :
    ((u.proc p).chan = some (.user .nread) → u.data.empty ∧ u.data.writeopen = true) ∧
    ((u.proc p).chan = some (.user .nwrite) → u.data.full ∧ u.data.readopen = true) := by
  obtain ⟨hi, hread⟩ := run_wake readers_discipline
    (fun σ c n p hw ha hrun => attentive_of_announces hw ha hrun) rfl h
  obtain ⟨-, hroom⟩ := run_wake room_discipline (fun _ _ n _ hw _ _ => room_honest.attentive hw n) rfl h
  obtain ⟨-, hopen⟩ := run_wake open_discipline (fun _ _ n _ hw _ _ => open_honest.attentive hw n) rfl h
  constructor
  · intro hch
    have hno : ¬ Readable u.data := fun hc => hread.none_lost hi hfree hc hsl hch
    rw [Readable, not_or, not_not, Bool.not_eq_false] at hno
    exact hno
  · intro hch
    have hfull : ¬ ¬ u.data.full := fun hc => hroom.none_lost hi hfree hc hsl hch
    have hop : ¬ u.data.readopen = false := fun hc => hopen.none_lost hi hfree hc hsl hch
    exact ⟨not_not.mp hfull, Bool.not_eq_false _ ▸ hop⟩

/-- The first process makes a reader, with id 2, and a writer, with id 3, and can kill the writer. -/
def killWriter : ℕ → Call
  | 1 => .kfork
  | 2 => .piperead 1
  | 3 => .pipewrite (fun _ => some 97) 2
  | _ => .kkill 3

/-- The reader goes to sleep on the empty pipe. -/
def readerSleeps : List Act := List.replicate 27 (.step 0 1) ++ List.replicate 16 (.step 1 2)

/-- Then the writer puts in the first of its two bytes, is killed, and gives up. -/
def writerKilled : List Act :=
  readerSleeps ++ List.replicate 14 (.step 2 3) ++ List.replicate 8 (.step 0 4) ++ List.replicate 5 (.step 2 3)

theorem writerKilled_ok : (execIf (step (code killWriter)) (fun _ _ => true) writerKilled (start fun _ => 0)).Sat fun u =>
    u.lock (.user ()) = none ∧ (u.proc 1).state = .sleeping ∧ (u.proc 1).chan = some (.user .nread) ∧ ¬ u.data.empty := by
  decide +kernel

/-- A reader sleeps beside a byte that nobody will tell it of. -/
theorem killed_writer_loses_wakeup : ∃ u, Run (step (code killWriter)) Free (start fun _ => 0) writerKilled u ∧
    u.lock (.user ()) = none ∧ (u.proc 1).state = .sleeping ∧ (u.proc 1).chan = some (.user .nread) ∧
    ¬ u.data.empty := by
  obtain ⟨u, hu, hfacts⟩ := writerKilled_ok.ok
  exact ⟨u, (run_of_execIf hu).free, hfacts⟩

theorem readerSleeps_ok : (execIf (step (code killWriter)) announces readerSleeps (start fun _ => 0)).Sat fun u =>
    u.lock (.user ()) = none ∧ (u.proc 1).state = .sleeping ∧ (u.proc 1).chan = some (.user .nread) := by
  decide +kernel

theorem pipe_wakes_reader : ∃ u,
    Run (step (code killWriter)) (fun σ a => announces σ a = true) (start fun _ => 0) readerSleeps u ∧
    (u.proc 1).state = .sleeping ∧ (u.proc 1).chan = some (.user .nread) ∧ u.data.empty ∧ u.data.writeopen = true := by
  obtain ⟨u, hu, hfree, hsl, hch⟩ := readerSleeps_ok.ok
  have hrun := run_of_execIf hu
  exact ⟨u, hrun, hsl, hch, (pipe_wakes killWriter (fun _ => 0) _ u hrun hfree 1 hsl).1 hch⟩

end Xv6.Pipe
