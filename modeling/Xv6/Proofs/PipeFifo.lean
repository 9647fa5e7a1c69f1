import Xv6.Lib.Ring
import Xv6.Sanity.Pipe

/-! A pipe is a queue of bytes. -/

namespace Xv6.Pipe

open Machine Proc

/-- The points at which the code holds `pi->lock`. -/
def Point.locked : Point → Prop
  | .writeTest .. | .writeKilled .. | .writePut .. | .writeFull .. | .writeSleep .. | .writeWake .. | .writeDone _
  | .writeFail _ | .readTest _ | .readKilled _ | .readSleep _ | .readCopy .. | .readWake .. | .readDone _ | .readFail
  | .closeSet _ | .closeWake _ | .closeDone _ => True
  | _ => False

/-- The number of the `pipewrite` a process is in. -/
def Point.call : Point → Option ℕ
  | .writeEnter w .. | .writeTest w .. | .writeKilled w .. | .writePut w .. | .writeFull w .. | .writeSleep w .. => some w
  | _ => none

/-- Of the buffer of call `w` the first `i` bytes are in the pipe, or have been. -/
def Written (d : Pipe) (w : ℕ) (mem : ℕ → Option UInt8) (i : ℕ) : Prop :=
  ((d.appended.filter fun b => b.1 = w).map fun b => some b.2) = (List.range i).map mem

/-- What a process knows at a point: how far its call has come, or that its call is the last one that
has begun to take out bytes. -/
def Point.Fact (d : Pipe) : Point → Prop
  | .writeEnter w mem _ => d.calls[w]? = some mem ∧ Written d w mem 0
  | .writeTest w mem _ i _ | .writeKilled w mem _ i _ | .writePut w mem _ i _ | .writeFull w mem _ i _
  | .writeSleep w mem _ i => d.calls[w]? = some mem ∧ Written d w mem i
  | .readCopy r _ _ => r + 1 = d.reads
  | _ => True

/-- What the record says, and how it agrees with the pipe. -/
structure Sane (d : Pipe) : Prop where
  queue : ∃ q, d.appended.map Prod.snd = d.removed.map Prod.snd ++ q ∧ Ring.Holds PIPESIZE d.data d.nread d.nwrite q
  written : ∀ w mem, d.calls[w]? = some mem → ∃ i, Written d w mem i
  known : ∀ b ∈ d.appended, b.1 < d.calls.length
  sorted : (d.removed.map Prod.fst).Pairwise (· ≤ ·)
  begun : ∀ b ∈ d.removed, b.1 < d.reads

variable {script : ℕ → Call} {d d' : Pipe} {w w' i j r : ℕ} {mem mem' : ℕ → Option UInt8} {ch : UInt8} {k k' : Point}

theorem locking : Locking (code script) (.idle 0) () Point.locked where
  act := by
    intro k f n d d' k' hk hf
    cases acts_of_act hk hf <;> exact Iff.rfl
  acquire := by intro k l' k' hk; cases k <;> cases hk <;> exact ⟨id, trivial⟩
  release := by intro k l' k' hk; cases k <;> cases hk <;> exact ⟨trivial, id⟩
  sleep := by intro k x l' k' hk; cases k <;> cases hk <;> exact ⟨trivial, trivial⟩
  wakeup := by intro k x k' hk; cases k <;> cases hk <;> exact Iff.rfl
  killed := by intro k yes no hk; cases k <;> cases hk <;> exact ⟨Iff.rfl, Iff.rfl⟩
  setkilled := by intro k k' hk; cases k <;> cases hk
  kkill := by intro k pid k' hk; cases k <;> cases hk; exact id
  kfork := by intro k k' child hk; cases k <;> cases hk; exact id
  kexit := by intro k status hk; cases k <;> cases hk; exact id
  kwait := by intro k k' hk; cases k <;> cases hk; exact id
  entry := by
    intro k hk
    obtain ⟨ret, rfl⟩ := idle_of_entry hk
    exact id

theorem size_dvd : PIPESIZE ∣ 2 ^ 32 := by decide

theorem size_lt : PIPESIZE < 2 ^ 32 := by decide

theorem Written.put (h : Written d w mem i) (hm : mem i = some ch) : Written (d.put w ch) w mem (i + 1) := by
  unfold Written at h ⊢
  simp only [Pipe.put, List.filter_append, List.map_append, h, List.range_succ]
  simp [hm]

theorem written_put_other (hw : w' ≠ w) : Written (d.put w ch) w' mem' j ↔ Written d w' mem' j := by
  unfold Written
  simp only [Pipe.put, List.filter_append, List.map_append]
  simp [Ne.symm hw]

theorem Sane.pipewrite (h : Sane d) (mem : ℕ → Option UInt8) :
    Sane { d with calls := d.calls ++ [mem] } ∧ Written d d.calls.length mem 0 := by
  have hnone : Written d d.calls.length mem 0 := by
    have : d.appended.filter (fun b => b.1 = d.calls.length) = [] := by
      simp only [List.filter_eq_nil_iff, decide_eq_true_eq]
      exact fun b hb => (h.known b hb).ne
    simp only [Written, this, List.map_nil, List.range_zero]
  refine ⟨⟨h.queue, fun w mem' hw => ?_, fun b hb => ?_, h.sorted, h.begun⟩, hnone⟩
  · rcases lt_or_ge w d.calls.length with hlt | hge
    · rw [List.getElem?_append_left hlt] at hw
      exact h.written w mem' hw
    · rw [List.getElem?_append_right hge, List.getElem?_singleton] at hw
      split_ifs at hw with hz
      obtain rfl : w = d.calls.length := by omega
      exact ⟨0, Option.some.inj hw ▸ hnone⟩
  · simpa using Nat.lt_succ_of_lt (h.known b hb)

theorem Sane.put (h : Sane d) (hroom : ¬ d.full) (hcall : d.calls[w]? = some mem) (hw : Written d w mem i)
    (hm : mem i = some ch) : Sane (d.put w ch) := by
  obtain ⟨q, happ, hring⟩ := h.queue
  have hlen : q.length < PIPESIZE :=
    lt_of_le_of_ne hring.length_le fun he => hroom ((hring.full_iff size_lt).mpr he)
  refine ⟨⟨q ++ [ch], ?_, hring.push size_dvd hlen⟩, fun w' mem' hw' => ?_, fun b hb => ?_, h.sorted, h.begun⟩
  · simp [Pipe.put, happ]
  · by_cases hww : w' = w
    · subst hww
      obtain rfl : mem = mem' := Option.some.inj (hcall.symm.trans hw')
      exact ⟨i + 1, hw.put hm⟩
    · obtain ⟨j, hj⟩ := h.written w' mem' hw'
      exact ⟨j, (written_put_other hww).mpr hj⟩
  · rcases List.mem_append.mp hb with hb | hb
    · exact h.known b hb
    · rw [List.mem_singleton.mp hb]
      exact (List.getElem?_eq_some_iff.mp hcall).1

theorem Sane.take (h : Sane d) (hsome : ¬ d.empty) (hr : r + 1 = d.reads) : Sane (d.take r) := by
  obtain ⟨q, happ, hring⟩ := h.queue
  cases q with
  | nil => exact absurd ((hring.empty_iff size_lt).mpr rfl) hsome
  | cons b q =>
    obtain ⟨hb, hring'⟩ := hring.pop
    refine ⟨⟨q, ?_, hring'⟩, h.written, h.known, ?_, fun b' hb' => ?_⟩
    · simp [Pipe.take, happ, hb]
    · simp only [Pipe.take, List.map_append, List.map_cons, List.map_nil]
      refine List.pairwise_append.mpr ⟨h.sorted, List.pairwise_singleton _ _, fun x hx y hy => ?_⟩
      obtain ⟨b', hb', rfl⟩ := List.mem_map.mp hx
      rw [List.mem_singleton.mp hy]
      have hlt := h.begun b' hb'
      rw [← hr] at hlt
      exact Nat.le_of_lt_succ hlt
    · rcases List.mem_append.mp hb' with hb' | hb'
      · exact h.begun b' hb'
      · rw [List.mem_singleton.mp hb']
        exact hr ▸ Nat.lt_succ_self r

theorem sound : Sound (code script) (.idle 0) () Point.locked Point.call (fun d => d.calls.length) Sane
    (fun k d => k.Fact d) where
  act := by
    intro k f n d d' k' hk hf hQ hF htok
    cases acts_of_act hk hf with
    | pipewrite ret mem n =>
      obtain ⟨hsane, hw⟩ := hQ.pipewrite mem
      exact ⟨hsane, ⟨by simp, hw⟩, by simp, Or.inr (Or.inr ⟨rfl, by simp⟩)⟩
    | put hroom hm => exact ⟨hQ.put hroom hF.1 hF.2 hm, ⟨hF.1, hF.2.put hm⟩, le_rfl, Or.inl rfl⟩
    | begin =>
      exact ⟨⟨hQ.queue, hQ.written, hQ.known, hQ.sorted, fun b hb => Nat.lt_succ_of_lt (hQ.begun b hb)⟩, rfl, le_rfl,
        Or.inl rfl⟩
    | lose hsome => exact ⟨hQ.take hsome hF, trivial, le_rfl, Or.inl rfl⟩
    | take hsome => exact ⟨hQ.take hsome hF, hF, le_rfl, Or.inl rfl⟩
    | closeWrite | closeRead =>
      exact ⟨⟨hQ.queue, hQ.written, hQ.known, hQ.sorted, hQ.begun⟩, trivial, le_rfl, Or.inl rfl⟩
    | goOn | isFull => exact ⟨hQ, hF, le_rfl, Or.inl rfl⟩
    | closed | allWritten | noByte => exact ⟨hQ, trivial, le_rfl, Or.inr (Or.inl rfl)⟩
    | _ => exact ⟨hQ, trivial, le_rfl, Or.inl rfl⟩
  edge := by
    intro k k' d he hF
    cases he with
    | @acquire k k' l hk | @release k k' l hk =>
      cases k <;> cases hk <;> exact ⟨hF, Or.inl rfl⟩
    | @sleep k k' x l hk => cases k <;> cases hk <;> exact ⟨hF, Or.inl rfl⟩
    | @wakeup k k' x hk => cases k <;> cases hk <;> exact ⟨hF, Or.inl rfl⟩
    | @setkilled k k' hk => cases k <;> cases hk
    | @no k yes no hk => cases k <;> cases hk <;> exact ⟨hF, Or.inl rfl⟩
    | @yes k yes no hk => cases k <;> cases hk <;> exact ⟨trivial, Or.inr rfl⟩
  entry := by
    intro k d he _
    obtain ⟨ret, rfl⟩ := idle_of_entry he
    exact ⟨trivial, rfl⟩
  other := by
    intro k f n d d' k' j hk hf _ hj hlock htok hold
    cases acts_of_act hk hf with
    | pipewrite ret mem n =>
      have hcalls : ∀ w mem', w < d.calls.length → d.calls[w]? = some mem' → (d.calls ++ [mem])[w]? = some mem' :=
        fun w mem' hw h => by rw [List.getElem?_append_left hw, h]
      cases j with
      | writeEnter w mem' n | writeTest w mem' n i owed | writeKilled w mem' n i owed | writePut w mem' n i owed
      | writeFull w mem' n i owed | writeSleep w mem' n i => exact ⟨hcalls w mem' (hold w rfl) hj.1, hj.2⟩
      | _ => exact hj
    | @put w mem n i owed ch hroom hm =>
      cases j with
      | writeEnter w' mem' n | writeTest w' mem' n i owed | writeKilled w' mem' n i owed | writePut w' mem' n i owed
      | writeFull w' mem' n i owed | writeSleep w' mem' n i =>
        have hne : w' ≠ w := fun he => htok w rfl (congrArg some he)
        exact ⟨hj.1, (written_put_other hne).mpr hj.2⟩
      | _ => exact hj
    | begin =>
      -- no other process is taking out bytes
      cases j with
      | readCopy r n i =>
        obtain ⟨k₀, x, hk₀⟩ := hlock trivial trivial
        cases k₀ <;> cases hk₀
      | _ => exact hj
    | _ => cases j <;> exact hj

/-- The calls of `piperead` take out bytes one after the other. -/
theorem contiguous {l : List (ℕ × UInt8)} (h : (l.map Prod.fst).Pairwise (· ≤ ·)) (r : ℕ) :
    ∃ a b c, l = a ++ b ++ c ∧ (∀ x ∈ a, x.1 < r) ∧ (∀ x ∈ b, x.1 = r) ∧ ∀ x ∈ c, r < x.1 := by
  induction l with
  | nil => exact ⟨[], [], [], rfl, nofun, nofun, nofun⟩
  | cons x l ih =>
    rw [List.map_cons, List.pairwise_cons] at h
    obtain ⟨a, b, c, rfl, ha, hb, hc⟩ := ih h.2
    have hle : ∀ y ∈ a ++ b ++ c, x.1 ≤ y.1 := fun y hy => h.1 _ (List.mem_map_of_mem hy)
    have hnil : ∀ {s : List (ℕ × UInt8)}, (∀ y ∈ s, y.1 < x.1) → (∀ y ∈ s, x.1 ≤ y.1) → s = [] := fun hlt hge =>
      List.eq_nil_iff_forall_not_mem.mpr fun y hy => absurd (hlt y hy) (Nat.not_lt.mpr (hge y hy))
    rcases lt_trichotomy x.1 r with hx | hx | hx
    · exact ⟨x :: a, b, c, rfl, List.forall_mem_cons.mpr ⟨hx, ha⟩, hb, hc⟩
    · obtain rfl : a = [] := hnil (fun y hy => hx ▸ ha y hy) fun y hy => hle y (by simp [hy])
      exact ⟨[], x :: b, c, rfl, nofun, List.forall_mem_cons.mpr ⟨hx, hb⟩, hc⟩
    · obtain rfl : a = [] := hnil (fun y hy => (ha y hy).trans hx) fun y hy => hle y (by simp [hy])
      obtain rfl : b = [] := hnil (fun y hy => (hb y hy).trans_lt hx) fun y hy => hle y (by simp [hy])
      exact ⟨[], [], x :: c, rfl, nofun, nofun, List.forall_mem_cons.mpr ⟨hx, hc⟩⟩

theorem pipealloc_sane (data : ℕ → UInt8) : Sane (pipealloc data) :=
  ⟨⟨[], rfl, .nil _ _⟩, nofun, nofun, .nil, nofun⟩

/-- **A pipe is a queue.** In every state that any number of readers and writers can reach: the bytes
taken out are a prefix of the bytes put in; those of one `pipewrite` are the first ones of its
buffer, in their order; those taken out by one `piperead` stand together; and the difference of the
counters, which wrap around, is the number of bytes in the pipe, at most `PIPESIZE`. -/
theorem pipe_is_fifo (script : ℕ → Call) (data : ℕ → UInt8) (as : List Act) (u : State Pipe Unit Addr Point)
    (h : Run (step (code script)) Free (start data) as u) :
    u.data.removed.map Prod.snd <+: u.data.appended.map Prod.snd ∧
    (∀ w mem, u.data.calls[w]? = some mem → ∃ i,
      ((u.data.appended.filter fun b => b.1 = w).map fun b => some b.2) = (List.range i).map mem) ∧
    (∀ r, ∃ a b c, u.data.removed = a ++ b ++ c ∧ (∀ x ∈ b, x.1 = r) ∧ ∀ x ∈ a ++ c, x.1 ≠ r) ∧
    u.data.appended.length = u.data.removed.length + (u.data.nwrite - u.data.nread).toNat ∧
    (u.data.nwrite - u.data.nread).toNat ≤ PIPESIZE := by
  have hsane := (run_holds locking sound (pipealloc_sane data) h).2.data
  obtain ⟨q, happ, hring⟩ := hsane.queue
  refine ⟨⟨q, happ.symm⟩, hsane.written, fun r => ?_, ?_, ?_⟩
  · obtain ⟨a, b, c, heq, ha, hb, hc⟩ := contiguous hsane.sorted r
    refine ⟨a, b, c, heq, hb, fun x hx => ?_⟩
    exact (List.mem_append.mp hx).elim (fun hx => (ha x hx).ne) fun hx => (hc x hx).ne'
  · have hlen := congrArg List.length happ
    rw [List.length_append, List.length_map, List.length_map] at hlen
    rw [hring.sub_toNat size_lt, hlen]
  · rw [hring.sub_toNat size_lt]
    exact hring.length_le

/-- A process writes two bytes and then reads one. -/
def writeRead : ℕ → Call
  | 1 => .pipewrite (fun i => some (if i = 0 then 97 else 98)) 2
  | _ => .piperead 1

theorem writeRead_ok :
    (execIf (step (code writeRead)) (fun _ _ => true) (List.replicate 146 (.step 0 1) ++ List.replicate 4 (.step 0 2))
      (start fun _ => 0)).Sat fun u =>
      u.data.appended = [(0, 97), (0, 98)] ∧ u.data.removed = [(0, 97)] ∧ u.data.nwrite - u.data.nread = 1 := by
  decide +kernel

theorem pipe_is_fifo_writeRead : ∃ u,
    Run (step (code writeRead)) Free (start fun _ => 0) (List.replicate 146 (.step 0 1) ++ List.replicate 4 (.step 0 2)) u ∧
    u.data.removed = [(0, 97)] ∧ [97] <+: u.data.appended.map Prod.snd ∧
    (u.data.nwrite - u.data.nread).toNat ≤ PIPESIZE := by
  obtain ⟨u, hu, happ, hrem, -⟩ := writeRead_ok.ok
  have hrun := (run_of_execIf hu).free
  obtain ⟨hpre, -, -, -, hsize⟩ := pipe_is_fifo writeRead (fun _ => 0) _ u hrun
  rw [hrem] at hpre
  exact ⟨u, hrun, hrem, hpre, hsize⟩

end Xv6.Pipe
