import Xv6.Sanity.LogWrites

/-! A crash at any write of `commit`, followed by any number of crashes inside
`recover_from_log`, leaves either the old or the new contents of all logged
blocks once one recovery runs to its end. The disk is in one of two conditions
throughout: `Clean`, with an empty header and settled home blocks, or
`Committed`, with a full header, the log copies in place and every home block
either old or new. Both are kept by any prefix of a recovery. -/

namespace Xv6.Log

open Bytes

/-! The header block. -/

theorem putBlocks_succ (lh : List UInt32) (b : Block) (k : ℕ) :
    putBlocks lh b (k + 1) = (putBlocks lh b k).put32 (4 + 4 * k) (lh.getD k 0) := by
  simp [putBlocks, List.range_succ]

theorem putBlocks_get32_zero (lh : List UInt32) (b : Block) (k : ℕ) :
    (putBlocks lh b k).get32 0 = b.get32 0 := by
  induction k with
  | zero => rfl
  | succ k ih => rw [putBlocks_succ, ByteVec.get32_put32_ne _ _ _ _ (by omega), ih]

theorem putBlocks_get32 (lh : List UInt32) (b : Block) (k i : ℕ) (hi : i < k) (hk : k ≤ LOGBLOCKS) :
    (putBlocks lh b k).get32 (4 + 4 * i) = lh.getD i 0 := by
  induction k with
  | zero => omega
  | succ k ih =>
    rw [putBlocks_succ]
    by_cases h : i = k
    · subst h
      exact ByteVec.get32_put32_self _ _ _ (by simp only [LOGBLOCKS, BSIZE, MAXOPBLOCKS] at *; omega)
    · rw [ByteVec.get32_put32_ne _ _ _ _ (by omega), ih (by omega) (by omega)]

theorem headN_putHead (lh : List UInt32) (b : Block) (h : lh.length ≤ LOGBLOCKS) :
    headN (putHead lh b) = lh.length := by
  have hn : lh.length ≤ 30 := h
  rw [headN, putHead, putBlocks_get32_zero, ByteVec.get32_put32_self _ _ _ (by decide)]
  generalize lh.length = n at hn
  interval_cases n <;> rfl

theorem getHead_putHead (lh : List UInt32) (b : Block) (h : lh.length ≤ LOGBLOCKS) :
    getHead (putHead lh b) = lh := by
  rw [getHead, headN_putHead lh b h]
  apply List.ext_getElem
  · simp
  · intro i h1 h2
    rw [List.getElem_map, List.getElem_range, putHead, putBlocks_get32 _ _ _ _ h2 h,
      List.getD_eq_getElem?_getD, List.getElem?_eq_getElem h2]
    rfl

theorem getHead_nil (b : Block) (h : headN b = 0) : getHead b = [] := by
  simp [getHead, h]

theorem headN_clear (b : Block) : headN (putHead [] b) = 0 := headN_putHead [] b (by decide)

/-! Block writes. -/

theorem applyWrites_append (d : ℕ → Block) (ws vs : List (ℕ × Block)) :
    applyWrites d (ws ++ vs) = applyWrites (applyWrites d ws) vs := by
  simp [applyWrites]

theorem applyWrites_other (ws : List (ℕ × Block)) (d : ℕ → Block) (b : ℕ) (h : ∀ w ∈ ws, w.1 ≠ b) :
    applyWrites d ws b = d b := by
  induction ws generalizing d with
  | nil => rfl
  | cons w ws ih =>
    change applyWrites (Function.update d w.1 w.2) ws b = d b
    rw [ih _ fun v hv => h v (List.mem_cons_of_mem _ hv),
      Function.update_of_ne (h w List.mem_cons_self).symm]

/-- After some writes a block holds what one of them put there, or what it held before. -/
theorem applyWrites_cases (ws : List (ℕ × Block)) (d : ℕ → Block) (b : ℕ) :
    applyWrites d ws b = d b ∨ (b, applyWrites d ws b) ∈ ws := by
  induction ws generalizing d with
  | nil => exact Or.inl rfl
  | cons w ws ih =>
    change applyWrites (Function.update d w.1 w.2) ws b = d b ∨
      (b, applyWrites (Function.update d w.1 w.2) ws b) ∈ w :: ws
    rcases ih (Function.update d w.1 w.2) with h | h
    · by_cases hb : b = w.1
      · subst hb
        rw [h, Function.update_self]
        exact Or.inr List.mem_cons_self
      · rw [h, Function.update_of_ne hb]
        exact Or.inl rfl
    · exact Or.inr (List.mem_cons_of_mem _ h)

theorem applyWrites_mem (ws : List (ℕ × Block)) (d : ℕ → Block) (b : ℕ) (h : ∃ v, (b, v) ∈ ws) :
    (b, applyWrites d ws b) ∈ ws := by
  induction ws generalizing d with
  | nil => simp at h
  | cons w ws ih =>
    change (b, applyWrites (Function.update d w.1 w.2) ws b) ∈ w :: ws
    by_cases ht : ∃ v, (b, v) ∈ ws
    · exact List.mem_cons_of_mem _ (ih _ ht)
    · obtain ⟨v, hv⟩ := h
      rcases List.mem_cons.mp hv with rfl | hv
      · rw [applyWrites_other ws _ b fun u hu he => ht ⟨u.2, by rw [← he]; exact hu⟩,
          Function.update_self]
        exact List.mem_cons_self
      · exact absurd ⟨v, hv⟩ ht

/-! The two conditions of the disk. -/

/-- An empty header and home blocks `f`. -/
structure Clean (start : ℕ) (f d : ℕ → Block) : Prop where
  head : headN (d start) = 0
  home : ∀ b, ¬ InLog start b → d b = f b

/-- The header names `lh`, the log holds the new value `new b` of each named
block, and every home block is old, or named and new. -/
structure Committed (start : ℕ) (lh : List UInt32) (new old d : ℕ → Block) : Prop where
  head : getHead (d start) = lh
  copies : ∀ i < lh.length, d (start + i + 1) = new (lh.getD i 0).toNat
  home : ∀ b, ¬ InLog start b → d b = old b ∨ ((∃ c ∈ lh, c.toNat = b) ∧ d b = new b)

/-- All named blocks new, every other block old. -/
def finish (lh : List UInt32) (new old : ℕ → Block) (b : ℕ) : Block :=
  if ∃ c ∈ lh, c.toNat = b then new b else old b

section Recovery

variable {start : ℕ} {lh : List UInt32} {new old d f : ℕ → Block}

theorem Clean.recoverWrites_eq (h : Clean start f d) :
    recoverWrites start d = [(start, putHead [] (d start))] := by
  have hg : getHead (d start) = [] := getHead_nil _ h.head
  rw [recover_writes start d (by rw [hg]; simp [HomesOutside]) (by rw [hg]; simp), hg]
  rfl

theorem Clean.crash (h : Clean start f d) (k : ℕ) :
    Clean start f (crash d (recoverWrites start d) k) := by
  rw [h.recoverWrites_eq, Log.crash]
  cases k with
  | zero => exact h
  | succ k =>
    rw [List.take_succ_cons, List.take_nil]
    refine ⟨?_, fun b hb => ?_⟩
    · simp only [applyWrites, List.foldl_cons, List.foldl_nil, Function.update_self]
      exact headN_clear _
    · rw [applyWrites_other _ _ _ fun w hw he => hb ?_]
      · exact h.home b hb
      · rw [List.mem_singleton.mp hw] at he
        exact he ▸ ⟨le_rfl, by omega⟩

theorem mem_lh_getD {i : ℕ} (hi : i < lh.length) : lh.getD i 0 ∈ lh := by
  rw [List.getD_eq_getElem?_getD, List.getElem?_eq_getElem hi]
  exact List.getElem_mem hi

/-- A redo write puts the new value of a named block in its home place. -/
theorem Committed.redo_mem (h : Committed start lh new old d) {w : ℕ × Block}
    (hw : w ∈ redo start d lh.length) : (∃ c ∈ lh, c.toNat = w.1) ∧ w.2 = new w.1 := by
  obtain ⟨i, hi, rfl⟩ := List.mem_map.mp hw
  have hi := List.mem_range.mp hi
  simp only [h.head]
  exact ⟨⟨_, mem_lh_getD hi, rfl⟩, h.copies i hi⟩

theorem Committed.recoverWrites_eq (h : Committed start lh new old d) (hout : HomesOutside start lh)
    (hn : lh.length ≤ LOGBLOCKS) :
    recoverWrites start d = redo start d lh.length ++ [(start, putHead [] (d start))] := by
  rw [recover_writes start d (by rw [h.head]; exact hout) (by rw [h.head]; exact hn), h.head]

/-- Any of the redo writes, in any number, keep the disk committed. -/
theorem Committed.apply (h : Committed start lh new old d) (hout : HomesOutside start lh)
    (hn : lh.length ≤ LOGBLOCKS) {ws : List (ℕ × Block)}
    (hws : ∀ w ∈ ws, (∃ c ∈ lh, c.toNat = w.1) ∧ w.2 = new w.1) :
    Committed start lh new old (applyWrites d ws) := by
  have hlog : ∀ b, InLog start b → applyWrites d ws b = d b := by
    intro b hb
    apply applyWrites_other
    intro w hw he
    obtain ⟨c, hc, hcw⟩ := (hws w hw).1
    exact hout c hc (by rw [hcw, he]; exact hb)
  refine ⟨?_, fun i hi => ?_, fun b hb => ?_⟩
  · rw [hlog start ⟨le_rfl, by omega⟩]
    exact h.head
  · rw [hlog _ ⟨by omega, by omega⟩]
    exact h.copies i hi
  · rcases applyWrites_cases ws d b with hsame | hmem
    · rw [hsame]
      exact h.home b hb
    · exact Or.inr (hws _ hmem)

theorem Committed.finished (h : Committed start lh new old d) {ws : List (ℕ × Block)}
    (hws : ∀ w ∈ ws, (∃ c ∈ lh, c.toNat = w.1) ∧ w.2 = new w.1)
    (hall : ∀ c ∈ lh, ∃ v, (c.toNat, v) ∈ ws) (v : Block) (hv : headN v = 0) :
    Clean start (finish lh new old) (applyWrites d (ws ++ [(start, v)])) := by
  rw [applyWrites_append]
  refine ⟨?_, fun b hb => ?_⟩
  · simp only [applyWrites, List.foldl_cons, List.foldl_nil, Function.update_self]
    exact hv
  · have hne : b ≠ start := fun he => hb (he ▸ ⟨le_rfl, by omega⟩)
    change Function.update (applyWrites d ws) start v b = _
    rw [Function.update_of_ne hne, finish]
    split_ifs with hin
    · obtain ⟨c, hc, rfl⟩ := hin
      exact (hws _ (applyWrites_mem ws d c.toNat (hall c hc))).2
    · rw [applyWrites_other ws d b fun w hw he => hin (he ▸ (hws w hw).1)]
      rcases h.home b hb with hold | ⟨hin', -⟩
      · exact hold
      · exact absurd hin' hin

theorem redo_covers (hhead : getHead (d start) = lh) {c : UInt32} (hc : c ∈ lh) :
    ∃ v, (c.toNat, v) ∈ redo start d lh.length := by
  obtain ⟨i, hi, rfl⟩ := List.getElem_of_mem hc
  refine ⟨d (start + i + 1), List.mem_map.mpr ⟨i, List.mem_range.mpr hi, ?_⟩⟩
  rw [hhead, List.getD_eq_getElem?_getD, List.getElem?_eq_getElem hi]
  rfl

/-- A recovery of a committed disk leaves it committed, or finishes it. -/
theorem Committed.crash (h : Committed start lh new old d) (hout : HomesOutside start lh)
    (hn : lh.length ≤ LOGBLOCKS) (k : ℕ) :
    (k ≤ lh.length ∧ Committed start lh new old (crash d (recoverWrites start d) k)) ∨
    (lh.length < k ∧ Clean start (finish lh new old) (crash d (recoverWrites start d) k)) := by
  rw [h.recoverWrites_eq hout hn, Log.crash]
  have hlen : (redo start d lh.length).length = lh.length := by simp [redo]
  by_cases hk : k ≤ lh.length
  · left
    refine ⟨hk, ?_⟩
    rw [List.take_append_of_le_length (by omega)]
    exact h.apply hout hn fun w hw => h.redo_mem (List.mem_of_mem_take hw)
  · right
    refine ⟨by omega, ?_⟩
    rw [List.take_of_length_le (by simp [hlen]; omega)]
    exact h.finished (fun w hw => h.redo_mem hw) (fun c hc => redo_covers h.head hc) _
      (headN_clear _)

end Recovery

/-- The conditions a crash inside a commit can leave behind. -/
def Recoverable (start : ℕ) (lh : List UInt32) (new old d : ℕ → Block) : Prop :=
  Clean start (finish lh new old) d ∨ Committed start lh new old d

theorem Recoverable.crashes {start : ℕ} {lh : List UInt32} {new old d d' : ℕ → Block}
    (hout : HomesOutside start lh) (hn : lh.length ≤ LOGBLOCKS)
    (h : Recoverable start lh new old d) (hc : Crashes start d d') :
    Recoverable start lh new old d' := by
  induction hc with
  | refl => exact h
  | again k _ ih =>
    rcases ih with hcl | hco
    · exact Or.inl (hcl.crash k)
    · rcases hco.crash hout hn k with ⟨-, hc⟩ | ⟨-, hc⟩
      · exact Or.inr hc
      · exact Or.inl hc

theorem Clean.crashes {start : ℕ} {f d d' : ℕ → Block} (h : Clean start f d)
    (hc : Crashes start d d') : Clean start f d' := by
  induction hc with
  | refl => exact h
  | again k _ ih => exact ih.crash k

/-- The disk after a recovery that is not interrupted. -/
def recovered (start : ℕ) (d : ℕ → Block) : ℕ → Block := (recoverFromLog start (boot d)).disk

/-- The disk of the log code is its initial disk with its writes applied. -/
def Replays (d : ℕ → Block) (s : LogSt) : Prop := s.disk = applyWrites d s.writes

theorem Replays.copy {d : ℕ → Block} {s : LogSt} (h : Replays d s) (dst src x y : ℕ) :
    Replays d (bwrite dst (memmove dst src (bread x (bread y s)))) := by
  have hb := copy_buf s dst src dst x y
  rw [bwrite_buf, if_pos rfl] at hb
  unfold Replays at h ⊢
  rw [copy_writes, applyWrites_append]
  change Function.update s.disk dst _ = _
  rw [hb, h]
  rfl

theorem Replays.writeHead {d : ℕ → Block} {s : LogSt} (h : Replays d s) (start : ℕ) :
    Replays d (writeHead start s) := by
  have hb := writeHead_buf start s start
  rw [Log.writeHead, bwrite_buf, if_pos rfl] at hb
  unfold Replays at h ⊢
  rw [writeHead_writes, applyWrites_append]
  change Function.update s.disk start _ = _
  rw [hb, h]
  rfl

theorem Replays.foldl {d : ℕ → Block} {g : LogSt → ℕ → LogSt}
    (hg : ∀ s t, Replays d s → Replays d (g s t)) (ts : List ℕ) {s : LogSt} (h : Replays d s) :
    Replays d (ts.foldl g s) := by
  induction ts generalizing s with
  | nil => exact h
  | cons t ts ih => exact ih (hg s t h)

theorem Replays.clearLh {d : ℕ → Block} {s : LogSt} (h : Replays d s) : Replays d (clearLh s) := h

theorem Replays.readHead {d : ℕ → Block} {s : LogSt} (h : Replays d s) (start : ℕ) :
    Replays d (readHead start s) := h

theorem Replays.recoverFromLog {d : ℕ → Block} {s : LogSt} (h : Replays d s) (start : ℕ) :
    Replays d (recoverFromLog start s) := by
  have hi : Replays d (installTrans start (Log.readHead start s)) :=
    Replays.foldl (fun s t hs => hs.copy _ _ _ _) _ (h.readHead start)
  exact hi.clearLh.writeHead start

theorem recovered_eq (start : ℕ) (d : ℕ → Block) :
    recovered start d = applyWrites d (recoverWrites start d) := by
  have h0 : Replays d (boot d) := by simp [Replays, boot, applyWrites]
  exact h0.recoverFromLog start

theorem recovered_crash (start : ℕ) (d : ℕ → Block) :
    recovered start d = crash d (recoverWrites start d) (recoverWrites start d).length := by
  rw [recovered_eq, crash, List.take_length]

theorem Clean.recovered {start : ℕ} {f d : ℕ → Block} (h : Clean start f d) :
    Clean start f (recovered start d) := by
  rw [recovered_crash]
  exact h.crash _

theorem Recoverable.recovered {start : ℕ} {lh : List UInt32} {new old d : ℕ → Block}
    (hout : HomesOutside start lh) (hn : lh.length ≤ LOGBLOCKS)
    (h : Recoverable start lh new old d) :
    Clean start (finish lh new old) (recovered start d) := by
  rcases h with hcl | hco
  · exact hcl.recovered
  · rw [recovered_crash]
    rcases hco.crash hout hn (recoverWrites start d).length with ⟨hk, -⟩ | ⟨-, hc⟩
    · rw [hco.recoverWrites_eq hout hn] at hk
      simp [redo] at hk
    · exact hc

/-! The commit itself. -/

section Commit

variable (start : ℕ) (s : LogSt) (hout : HomesOutside start s.lh) (hn : s.lh.length ≤ LOGBLOCKS)

include hn in
theorem copies_inLog {w : ℕ × Block} {t : ℕ} (hw : w ∈ (copies start s s.lh.length).take t) :
    InLog start w.1 ∧ w.1 ≠ start := by
  obtain ⟨i, hi, rfl⟩ := List.mem_map.mp (List.mem_of_mem_take hw)
  have hi := List.mem_range.mp hi
  exact ⟨⟨by simp only; omega, by simp only; omega⟩, by simp only; omega⟩

include hn in
/-- Before the first `write_head` only log copies have been written. -/
theorem copies_clean (hhead : headN (s.disk start) = 0) (t : ℕ) :
    Clean start s.disk (applyWrites s.disk ((copies start s s.lh.length).take t)) := by
  refine ⟨?_, fun b hb => ?_⟩
  · rw [applyWrites_other _ _ _ fun w hw he => (copies_inLog start s hn hw).2 he]
    exact hhead
  · exact applyWrites_other _ _ _ fun w hw he => hb (he ▸ (copies_inLog start s hn hw).1)

theorem copies_value {i t : ℕ} (hi : i < t) (d : ℕ → Block) :
    applyWrites d (copies start s t) (start + i + 1) = s.buf (s.block i) := by
  have hm := applyWrites_mem (copies start s t) d (start + i + 1)
    ⟨_, List.mem_map.mpr ⟨i, List.mem_range.mpr hi, rfl⟩⟩
  obtain ⟨j, hj, he⟩ := List.mem_map.mp hm
  simp only [Prod.mk.injEq] at he
  have : j = i := by omega
  rw [← he.2, this]

include hn in
/-- Right after the first `write_head` the transaction is on disk. -/
theorem head1_committed :
    Committed start s.lh s.buf s.disk
      (applyWrites s.disk (copies start s s.lh.length ++ [(start, head1 start s)])) := by
  rw [applyWrites_append]
  change Committed start s.lh s.buf s.disk
    (Function.update (applyWrites s.disk (copies start s s.lh.length)) start (head1 start s))
  have hc : ∀ w ∈ copies start s s.lh.length, InLog start w.1 ∧ w.1 ≠ start := fun w hw =>
    copies_inLog start s hn (t := s.lh.length) (by rwa [List.take_of_length_le (by simp [copies])])
  refine ⟨?_, fun i hi => ?_, fun b hb => Or.inl ?_⟩
  · rw [Function.update_self, head1]
    exact getHead_putHead _ _ hn
  · rw [Function.update_of_ne (by omega), copies_value start s hi, LogSt.block]
  · have hne : b ≠ start := fun he => hb (he ▸ ⟨le_rfl, by omega⟩)
    rw [Function.update_of_ne hne]
    exact applyWrites_other _ _ _ fun w hw he => hb (he ▸ (hc w hw).1)

theorem newHomes_mem {w : ℕ × Block} (hw : w ∈ newHomes s s.lh.length) :
    (∃ c ∈ s.lh, c.toNat = w.1) ∧ w.2 = s.buf w.1 := by
  obtain ⟨i, hi, rfl⟩ := List.mem_map.mp hw
  exact ⟨⟨_, mem_lh_getD (List.mem_range.mp hi), rfl⟩, rfl⟩

theorem newHomes_covers {c : UInt32} (hc : c ∈ s.lh) :
    ∃ v, (c.toNat, v) ∈ newHomes s s.lh.length := by
  obtain ⟨i, hi, rfl⟩ := List.getElem_of_mem hc
  refine ⟨s.buf (s.block i), List.mem_map.mpr ⟨i, List.mem_range.mpr hi, ?_⟩⟩
  rw [LogSt.block, List.getD_eq_getElem?_getD, List.getElem?_eq_getElem hi]
  rfl

include hout hn in
/-- From the first `write_head` on a crash leaves a recoverable disk. -/
theorem commit_recoverable (hpos : 0 < s.lh.length) (k : ℕ) (hk : s.lh.length < k) :
    Recoverable start s.lh s.buf s.disk (crash s.disk (commitWrites start s) k) := by
  rw [commit_writes start s hout hn hpos, crash]
  have hco := head1_committed start s hn
  have hlc : (copies start s s.lh.length).length = s.lh.length := by simp [copies]
  have hlh : (newHomes s s.lh.length).length = s.lh.length := by simp [newHomes]
  by_cases hend : k ≤ 2 * s.lh.length + 1
  · right
    rw [List.take_append_of_le_length (by simp [hlc, hlh]; omega), List.take_append,
      List.take_of_length_le (by simp [hlc]; omega), applyWrites_append]
    exact hco.apply hout hn fun w hw => newHomes_mem s (List.mem_of_mem_take hw)
  · left
    rw [List.take_of_length_le (by simp [hlc, hlh]; omega), List.append_assoc, applyWrites_append]
    exact hco.finished (fun w hw => newHomes_mem s hw) (fun c hc => newHomes_covers s hc) _
      (headN_clear _)

end Commit

/-- **Crash atomicity of commit and recovery.** Cut `commit` after its first `k`
writes, cut any number of recoveries short, and let one run to its end: the
header is empty, and the home blocks are all as before the commit if the first
`write_head` (write number `lh.n`, counted from 0) had not reached the disk, and
otherwise all logged blocks hold their cached contents and the rest is as before. -/
theorem commit_crash_atomic (start : ℕ) (s : LogSt) (hhead : headN (s.disk start) = 0)
    (hn : s.lh.length ≤ LOGBLOCKS) (hout : HomesOutside start s.lh)
    (k : ℕ) (d : ℕ → Block) (hd : Crashes start (crash s.disk (commitWrites start s) k) d) :
    headN (recovered start d start) = 0 ∧
    (k ≤ s.lh.length → ∀ b, ¬ InLog start b → recovered start d b = s.disk b) ∧
    (s.lh.length < k → ∀ b, ¬ InLog start b → recovered start d b =
      if ∃ c ∈ s.lh, c.toNat = b then s.buf b else s.disk b) := by
  rcases Nat.eq_zero_or_pos s.lh.length with h0 | hpos
  · -- nothing logged: no write, and old and new agree
    have hlh : s.lh = [] := List.length_eq_zero_iff.mp h0
    rw [commit_writes_nil start s hlh, crash, List.take_nil] at hd
    have hcl : Clean start s.disk s.disk := ⟨hhead, fun b _ => rfl⟩
    have hr := (hcl.crashes hd).recovered
    exact ⟨hr.head, fun _ => hr.home, fun _ b hb => by simpa [hlh] using hr.home b hb⟩
  · by_cases hk : k ≤ s.lh.length
    · have hcl : Clean start s.disk (crash s.disk (commitWrites start s) k) := by
        rw [commit_writes start s hout hn hpos, crash, List.append_assoc, List.append_assoc,
          List.take_append_of_le_length (by simpa [copies] using hk)]
        exact copies_clean start s hn hhead k
      have hr := (hcl.crashes hd).recovered
      exact ⟨hr.head, fun _ => hr.home, fun h => absurd hk (by omega)⟩
    · have hrec := commit_recoverable start s hout hn hpos k (by omega)
      have hr := (hrec.crashes hout hn hd).recovered hout hn
      exact ⟨hr.head, fun h => absurd h hk, fun _ => hr.home⟩

/-- One logged block, number 50, over a blank disk. -/
def oneLogged : LogSt where
  disk := fun _ => ByteVec.zero
  cache := Function.update (fun _ => none) 50 (some (ByteVec.zero.put32 0 7))
  lh := [50]
  writes := []

theorem commit_crash_atomic_oneLogged :
    recovered 2 (crash oneLogged.disk (commitWrites 2 oneLogged) 1) 50 = ByteVec.zero ∧
    recovered 2 (crash oneLogged.disk (commitWrites 2 oneLogged) 2) 50 = ByteVec.zero.put32 0 7 := by
  have hout : HomesOutside 2 oneLogged.lh := by
    intro b hb
    rw [List.mem_singleton.mp hb]
    decide
  have hhead : headN (oneLogged.disk 2) = 0 := by simp [headN, oneLogged]
  have h := fun k => commit_crash_atomic 2 oneLogged hhead (by decide) hout k _ Crashes.refl
  exact ⟨(h 1).2.1 (by decide) 50 (by decide), (h 2).2.2 (by decide) 50 (by decide)⟩

end Xv6.Log
