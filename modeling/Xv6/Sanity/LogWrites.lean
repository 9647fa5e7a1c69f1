import Xv6.Spec.Log

/-! The block writes of `commit` and `recover_from_log` in closed form: the log
copies, the header, the home blocks, the cleared header. The loops are followed
one iteration at a time; what a buffer holds outside the iteration's own block
does not change. -/

namespace Xv6.Log

open Bytes

section Buffers

variable (s : LogSt) (b c : ℕ) (d : Block)

@[simp] theorem bread_buf : (bread b s).buf c = s.buf c := by
  by_cases h : c = b
  · subst h
    simp [bread, LogSt.buf]
  · simp [bread, LogSt.buf, h]

@[simp] theorem bread_lh : (bread b s).lh = s.lh := rfl
@[simp] theorem bread_disk : (bread b s).disk = s.disk := rfl
@[simp] theorem bread_writes : (bread b s).writes = s.writes := rfl

@[simp] theorem setData_buf_self : (setData b d s).buf b = d := by
  simp [setData, LogSt.buf]

theorem setData_buf_ne (h : c ≠ b) : (setData b d s).buf c = s.buf c := by
  simp [setData, LogSt.buf, h]

@[simp] theorem setData_lh : (setData b d s).lh = s.lh := rfl
@[simp] theorem setData_writes : (setData b d s).writes = s.writes := rfl

theorem bwrite_buf : (bwrite b s).buf c = s.buf c := by
  by_cases h : c = b
  · subst h
    cases hc : s.cache c <;> simp [bwrite, LogSt.buf, hc]
  · simp [bwrite, LogSt.buf, h]

@[simp] theorem clearLh_buf : (clearLh s).buf c = s.buf c := rfl
@[simp] theorem clearLh_lh : (clearLh s).lh = [] := rfl
@[simp] theorem clearLh_writes : (clearLh s).writes = s.writes := rfl

@[simp] theorem bwrite_lh : (bwrite b s).lh = s.lh := rfl
@[simp] theorem bwrite_writes : (bwrite b s).writes = s.writes ++ [(b, s.buf b)] := rfl

end Buffers

/-- The effect of one loop iteration of `write_log` or `install_trans`: the
buffer of `dst` takes the data of `src` and is written out. -/
theorem copy_buf (s : LogSt) (dst src c : ℕ) (x y : ℕ) :
    (bwrite dst (memmove dst src (bread x (bread y s)))).buf c =
      if c = dst then s.buf src else s.buf c := by
  rw [bwrite_buf, memmove]
  split_ifs with h
  · subst h
    simp
  · rw [setData_buf_ne _ _ _ _ h]
    simp

theorem copy_writes (s : LogSt) (dst src x y : ℕ) :
    (bwrite dst (memmove dst src (bread x (bread y s)))).writes = s.writes ++ [(dst, s.buf src)] := by
  simp [memmove]

/-- The log copies of the first `t` logged blocks, as `write_log` issues them. -/
def copies (start : ℕ) (s : LogSt) (t : ℕ) : List (ℕ × Block) :=
  (List.range t).map fun i => (start + i + 1, s.buf (s.block i))

/-- The home writes of the first `t` logged blocks, as `install_trans` issues them. -/
def homes (start : ℕ) (s : LogSt) (t : ℕ) : List (ℕ × Block) :=
  (List.range t).map fun i => (s.block i, s.buf (start + i + 1))

/-- No logged block lies in the log, the first `n` log blocks being in it. -/
def HomesOutside (start : ℕ) (lh : List UInt32) : Prop := ∀ b ∈ lh, ¬ InLog start b.toNat

theorem block_outside {start : ℕ} {s : LogSt} (h : HomesOutside start s.lh) {i : ℕ}
    (hi : i < s.lh.length) : ¬ InLog start (s.block i) := by
  apply h
  rw [List.getD_eq_getElem?_getD, List.getElem?_eq_getElem hi]
  exact List.getElem_mem hi

structure WriteLogged (start : ℕ) (s s' : LogSt) (t : ℕ) : Prop where
  lh : s'.lh = s.lh
  copied : ∀ i < t, s'.buf (start + i + 1) = s.buf (s.block i)
  other : ∀ b, (∀ i < t, b ≠ start + i + 1) → s'.buf b = s.buf b
  writes : s'.writes = s.writes ++ copies start s t

theorem writeLog_fold (start : ℕ) (s : LogSt) (hout : HomesOutside start s.lh)
    (hn : s.lh.length ≤ LOGBLOCKS) (t : ℕ) (ht : t ≤ s.lh.length) :
    WriteLogged start s ((List.range t).foldl (writeLogAt start) s) t := by
  induction t with
  | zero => exact ⟨rfl, by simp, by simp, by simp [copies]⟩
  | succ t ih =>
    have h := ih (by omega)
    rw [List.range_succ, List.foldl_append]
    set s' := (List.range t).foldl (writeLogAt start) s
    -- the source buffer is a home block, so no earlier copy has touched it
    have hsrc : s'.buf (s'.block t) = s.buf (s.block t) := by
      have hb : s'.block t = s.block t := by simp only [LogSt.block, h.lh]
      rw [hb]
      apply h.other
      intro i hi he
      exact block_outside hout (i := t) (by omega) ⟨by omega, by omega⟩
    simp only [List.foldl_cons, List.foldl_nil, writeLogAt]
    refine ⟨by simpa [memmove] using h.lh, ?_, ?_, ?_⟩
    · intro i hi
      rw [copy_buf]
      split_ifs with he
      · have : i = t := by omega
        subst this
        exact hsrc
      · exact h.copied i (by omega)
    · intro b hb
      rw [copy_buf, if_neg (hb t (by omega))]
      exact h.other b fun i hi => hb i (by omega)
    · rw [copy_writes, h.writes, hsrc, copies, copies, List.range_succ, List.map_append,
        List.append_assoc]
      rfl

structure Installed (start : ℕ) (s s' : LogSt) (t : ℕ) : Prop where
  lh : s'.lh = s.lh
  logBufs : ∀ b, InLog start b → s'.buf b = s.buf b
  writes : s'.writes = s.writes ++ homes start s t

theorem installTrans_fold (start : ℕ) (s : LogSt) (hout : HomesOutside start s.lh)
    (hn : s.lh.length ≤ LOGBLOCKS) (t : ℕ) (ht : t ≤ s.lh.length) :
    Installed start s ((List.range t).foldl (installTransAt start) s) t := by
  induction t with
  | zero => exact ⟨rfl, by simp, by simp [homes]⟩
  | succ t ih =>
    have h := ih (by omega)
    rw [List.range_succ, List.foldl_append]
    set s' := (List.range t).foldl (installTransAt start) s
    have hb : s'.block t = s.block t := by simp only [LogSt.block, h.lh]
    have hdst : ¬ InLog start (s.block t) := block_outside hout (by omega)
    simp only [List.foldl_cons, List.foldl_nil, installTransAt, hb]
    refine ⟨by simpa [memmove] using h.lh, ?_, ?_⟩
    · intro b hlog
      rw [copy_buf, if_neg (fun he : b = s.block t => hdst (he ▸ hlog))]
      exact h.logBufs b hlog
    · rw [copy_writes, h.writes, h.logBufs _ ⟨by omega, by omega⟩, homes, homes, List.range_succ,
        List.map_append, List.append_assoc]
      rfl

theorem writeHead_writes (start : ℕ) (s : LogSt) :
    (writeHead start s).writes = s.writes ++ [(start, putHead s.lh (s.buf start))] := by
  simp [writeHead]

theorem writeHead_buf (start : ℕ) (s : LogSt) (b : ℕ) :
    (writeHead start s).buf b = if b = start then putHead s.lh (s.buf start) else s.buf b := by
  simp only [writeHead, bwrite_buf, bread_lh, bread_buf]
  split_ifs with h
  · subst h
    simp
  · rw [setData_buf_ne _ _ _ _ h, bread_buf]

@[simp] theorem writeHead_lh (start : ℕ) (s : LogSt) : (writeHead start s).lh = s.lh := rfl

/-- The header buffer after the first and the second `write_head` of `commit`. -/
def head1 (start : ℕ) (s : LogSt) : Block := putHead s.lh (s.buf start)
def head0 (start : ℕ) (s : LogSt) : Block := putHead [] (head1 start s)

/-- The home writes of `commit`, with the values the cache held when it began. -/
def newHomes (s : LogSt) (t : ℕ) : List (ℕ × Block) :=
  (List.range t).map fun i => (s.block i, s.buf (s.block i))

theorem installTrans_spec (start : ℕ) (s : LogSt) (hout : HomesOutside start s.lh)
    (hn : s.lh.length ≤ LOGBLOCKS) : Installed start s (installTrans start s) s.lh.length :=
  installTrans_fold start s hout hn s.lh.length le_rfl

theorem commit_writes (start : ℕ) (s : LogSt) (hout : HomesOutside start s.lh)
    (hn : s.lh.length ≤ LOGBLOCKS) (hpos : 0 < s.lh.length) :
    commitWrites start s = copies start s s.lh.length ++ [(start, head1 start s)] ++
      newHomes s s.lh.length ++ [(start, head0 start s)] := by
  unfold commitWrites commit
  rw [if_pos (by simpa using hpos)]
  set s0 : LogSt := { s with writes := [] }
  have hw : WriteLogged start s0 (writeLog start s0) s.lh.length :=
    writeLog_fold start s0 hout hn s.lh.length le_rfl
  set s1 := writeLog start s0
  have hlh : s1.lh = s.lh := hw.lh
  have hstart : s1.buf start = s.buf start := hw.other start (by omega)
  set s2 := writeHead start s1
  have hlh2 : s2.lh = s.lh := hlh
  have hi := installTrans_spec start s2 (by rw [hlh2]; exact hout) (by rw [hlh2]; exact hn)
  have hhead : (installTrans start s2).buf start = head1 start s := by
    rw [hi.logBufs start ⟨le_rfl, by omega⟩, writeHead_buf, if_pos rfl, hlh, hstart, head1]
  -- the log copies read back by `install_trans` are the cached data `write_log` put there
  have hhomes : homes start s2 s.lh.length = newHomes s s.lh.length := by
    apply List.map_congr_left
    intro i hi
    have hb : s2.block i = s.block i := by simp only [LogSt.block, hlh2]
    rw [hb, writeHead_buf, if_neg (by omega), hw.copied i (List.mem_range.mp hi)]
    rfl
  simp only [writeHead_writes, clearLh_writes, clearLh_lh, clearLh_buf]
  rw [hi.writes, hhead, hlh2, hhomes, writeHead_writes, hw.writes, hlh, hstart]
  simp only [s0, List.nil_append, List.append_assoc, head0, head1]
  rfl

/-- Without logged blocks `commit` writes nothing. -/
theorem commit_writes_nil (start : ℕ) (s : LogSt) (h : s.lh = []) : commitWrites start s = [] := by
  simp [commitWrites, commit, h]

/-- The home writes of recovery: each log copy to the block the header names. -/
def redo (start : ℕ) (d : ℕ → Block) (t : ℕ) : List (ℕ × Block) :=
  (List.range t).map fun i => (((getHead (d start)).getD i 0).toNat, d (start + i + 1))

theorem recover_writes (start : ℕ) (d : ℕ → Block) (hout : HomesOutside start (getHead (d start)))
    (hn : (getHead (d start)).length ≤ LOGBLOCKS) :
    recoverWrites start d =
      redo start d (getHead (d start)).length ++ [(start, putHead [] (d start))] := by
  unfold recoverWrites recoverFromLog
  set s1 := readHead start (boot d)
  have hbuf : ∀ b, s1.buf b = d b := fun b => bread_buf (boot d) start b
  have hlh : s1.lh = getHead (d start) := congrArg getHead (bread_buf (boot d) start start)
  have hi := installTrans_spec start s1 (by rw [hlh]; exact hout) (by rw [hlh]; exact hn)
  simp only [writeHead_writes, clearLh_writes, clearLh_lh, clearLh_buf]
  rw [hi.writes, hi.logBufs start ⟨le_rfl, by omega⟩, hbuf, hlh]
  have hw : s1.writes = [] := rfl
  have hredo : homes start s1 (getHead (d start)).length = redo start d (getHead (d start)).length := by
    apply List.map_congr_left
    intro i _
    rw [hbuf, LogSt.block, hlh]
  rw [hw, hredo, List.nil_append]

end Xv6.Log
