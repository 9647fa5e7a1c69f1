import Xv6.Lib.Ring
import Xv6.Spec.Console

/-! The console is a line editor: a simulation over the ring of `cons.buf`. -/

namespace Xv6.Console

open Machine Ring

/-- All copies to the reader succeed. -/
def Copies (_ : Sys) (a : Act) : Prop :=
  match a with
  | .read _ _ dst _ => ∀ i, dst i = true
  | _ => True

/-- The ring holds the committed characters and, after them, those being edited. -/
structure Buffers (s : Cons) (queue edit : List UInt8) : Prop where
  ring : Holds INPUT_BUF_SIZE s.buf s.r s.e (queue ++ edit)
  commit : s.w = s.r + BitVec.ofNat 32 queue.length
  edited : newline ∉ edit

/-- A read under way, in the console and in the editor. -/
structure SameReader (rd : Reader) (er : Editor.Reader) : Prop where
  got : rd.got = er.got
  target : rd.target.toInt = er.n
  rest : 0 < rd.target.toInt → rd.n.toNat + rd.got.length = rd.target.toNat
  none : rd.target.toInt ≤ 0 → rd.n = rd.target ∧ rd.got = []
  dst : ∀ i, rd.dst i = true

def SameReading : Option Reader → Option Editor.Reader → Prop
  | none, none => True
  | some rd, some er => SameReader rd er
  | _, _ => False

structure Matches (σ : Sys) (s : Editor.State) : Prop where
  buffers : Buffers σ.cons s.queue s.edit
  reading : ∀ p, SameReading (σ.reading p) (s.reading p)
  returned : σ.returned = s.returned

theorem size_dvd : INPUT_BUF_SIZE ∣ 2 ^ 32 := by decide
theorem size_lt : INPUT_BUF_SIZE < 2 ^ 32 := by decide

section Buffers

variable {s : Cons} {queue edit q : List UInt8} {c : UInt8}

section Facts

variable (h : Buffers s queue edit)

include h

theorem Buffers.length_le : queue.length + edit.length ≤ INPUT_BUF_SIZE := by
  have := h.ring.length_le
  rwa [List.length_append] at this

theorem Buffers.used : (s.e - s.r).toNat = queue.length + edit.length := by
  rw [h.ring.sub_toNat size_lt, List.length_append]

theorem Buffers.committed : (s.w - s.r).toNat = queue.length := by
  have hle := h.length_le
  rw [h.commit, BitVec.add_comm, BitVec.add_sub_cancel, BitVec.toNat_ofNat, Nat.mod_eq_of_lt]
  exact lt_of_le_of_lt (by omega) size_lt

theorem Buffers.e_eq : s.e = s.w + BitVec.ofNat 32 edit.length := by
  rw [h.ring.tail_eq, h.commit, List.length_append, BitVec.ofNat_add, BitVec.add_assoc]

theorem Buffers.edits : (s.e - s.w).toNat = edit.length := by
  have hle := h.length_le
  rw [h.e_eq, BitVec.add_comm, BitVec.add_sub_cancel, BitVec.toNat_ofNat, Nat.mod_eq_of_lt]
  exact lt_of_le_of_lt (by omega) size_lt

theorem Buffers.edit_nil_iff : s.e = s.w ↔ edit = [] := by
  constructor
  · intro he
    have hlen := h.edits
    rw [he, BitVec.sub_self] at hlen
    exact List.length_eq_zero_iff.mp (by simpa using hlen.symm)
  · rintro rfl
    rw [h.e_eq]
    simp

theorem Buffers.queue_nil_iff : s.r = s.w ↔ queue = [] := by
  constructor
  · intro he
    have hlen := h.committed
    rw [he, BitVec.sub_self] at hlen
    exact List.length_eq_zero_iff.mp (by simpa using hlen.symm)
  · rintro rfl
    rw [h.commit]
    simp

end Facts

/-- The last edited character is taken back. -/
theorem Buffers.erase (h : Buffers s queue (edit ++ [c])) :
    s.buf ((s.e - 1).toNat % INPUT_BUF_SIZE) = c ∧ Buffers { s with e := s.e - 1 } queue edit := by
  have hring := h.ring
  rw [← List.append_assoc] at hring
  obtain ⟨hslot, hback⟩ := hring.unpush
  exact ⟨hslot, hback, h.commit, fun hin => h.edited (List.mem_append_left _ hin)⟩

theorem Buffers.pop (h : Buffers s (c :: queue) edit) :
    s.buf (s.r.toNat % INPUT_BUF_SIZE) = c ∧ Buffers { s with r := s.r + 1 } queue edit := by
  obtain ⟨hslot, hpop⟩ := h.ring.pop
  refine ⟨hslot, hpop, ?_, h.edited⟩
  rw [h.commit, List.length_cons, Nat.add_comm, BitVec.ofNat_add, ← BitVec.add_assoc]
  rfl

end Buffers

section Interrupts

variable {s : Cons} {queue edit : List UInt8} {c : UInt8} {es : Editor.State}

theorem killLine_spec (edit : List UInt8) {s : Cons} (h : Buffers s queue edit) :
    Buffers (killLine edit.length s).1 queue [] := by
  induction edit using List.reverseRecOn generalizing s with
  | nil => exact h
  | append_singleton edit c ih =>
    obtain ⟨hslot, hback⟩ := h.erase
    have hne : s.e ≠ s.w := fun he => by simpa using h.edit_nil_iff.mp he
    have hc : c ≠ newline := fun he => h.edited (by simp [he])
    rw [List.length_append, List.length_singleton, killLine, if_pos ⟨hne, by rwa [hslot]⟩]
    exact ih hback

/-- What is stored for `c` ends a line iff `c` does. -/
theorem stored_iff (c : UInt8) :
    ((if c = carriageReturn then newline else c) = newline ↔ c = carriageReturn ∨ c = newline) ∧
    ((if c = carriageReturn then newline else c) = ctrl 'D' ↔ c = ctrl 'D') := by
  split_ifs with hc
  · exact ⟨⟨fun _ => .inl hc, fun _ => rfl⟩, ⟨fun h => absurd h (by decide), fun h => absurd (h.symm.trans hc) (by decide)⟩⟩
  · exact ⟨⟨.inr, fun h => h.resolve_left hc⟩, Iff.rfl⟩

theorem store_spec (h : Buffers s es.queue es.edit) (hP : c ≠ ctrl 'P') (hU : c ≠ ctrl 'U')
    (hH : ¬ (c = ctrl 'H' ∨ c = delete)) :
    Buffers (store c s).1 (Editor.type c es).queue (Editor.type c es).edit := by
  by_cases h0 : c = 0
  · rw [store, if_neg fun hc => hc.1 h0, Editor.type, if_pos (.inl h0)]
    exact h
  have hskip : ¬ (c = 0 ∨ c = ctrl 'P') := not_or.mpr ⟨h0, hP⟩
  rw [store, h.used]
  by_cases hfull : INPUT_BUF_SIZE ≤ es.queue.length + es.edit.length
  · rw [if_neg (by omega), Editor.type, if_neg hskip, if_neg hU, if_neg hH, if_pos hfull]
    exact h
  rw [if_pos ⟨h0, by omega⟩, Editor.type, if_neg hskip, if_neg hU, if_neg hH, if_neg hfull]
  have hroom : (es.queue ++ es.edit).length < INPUT_BUF_SIZE := by
    rw [List.length_append]
    omega
  obtain ⟨hnl, hD⟩ := stored_iff c
  generalize (if c = carriageReturn then newline else c) = c' at *
  have hring := h.ring.push size_dvd hroom (a := c')
  rw [List.append_assoc] at hring
  have hused := hring.sub_toNat size_lt
  rw [List.length_append] at hused
  simp only [hused, hnl, hD, or_assoc]
  split_ifs with hcommit
  · refine ⟨by simpa using hring, ?_, List.not_mem_nil⟩
    exact hring.tail_eq
  · refine ⟨hring, h.commit, fun hin => ?_⟩
    rcases List.mem_append.mp hin with hin | hin
    · exact h.edited hin
    · rcases hnl.mp (List.mem_singleton.mp hin).symm with hc | hc
      · exact hcommit (.inl hc)
      · exact hcommit (.inr (.inl hc))

theorem consoleintr_spec (h : Buffers s es.queue es.edit) :
    Buffers (consoleintr c s).1 (Editor.type c es).queue (Editor.type c es).edit := by
  by_cases hP : c = ctrl 'P'
  · rw [consoleintr, if_pos hP, Editor.type, if_pos (.inr hP)]
    exact h
  rw [consoleintr, if_neg hP]
  by_cases hU : c = ctrl 'U'
  · have hskip : ¬ (c = 0 ∨ c = ctrl 'P') := by
      rw [hU]
      decide
    rw [if_pos hU, Editor.type, if_neg hskip, if_pos hU, h.edits]
    exact killLine_spec es.edit h
  rw [if_neg hU]
  by_cases hH : c = ctrl 'H' ∨ c = delete
  · have hskip : ¬ (c = 0 ∨ c = ctrl 'P') := by
      rcases hH with rfl | rfl <;> decide
    rw [if_pos hH, Editor.type, if_neg hskip, if_neg hU, if_pos hH]
    rcases List.eq_nil_or_concat es.edit with hnil | ⟨edit, c, hedit⟩
    · rw [if_neg (not_not.mpr (h.edit_nil_iff.mpr hnil))]
      simpa [hnil] using h
    · rw [List.concat_eq_append] at hedit
      rw [hedit] at h
      rw [if_pos (fun he => List.concat_ne_nil _ _ (h.edit_nil_iff.mp he)), hedit, List.dropLast_concat]
      exact h.erase.2
  · rw [if_neg hH]
    exact store_spec h hP hU hH

end Interrupts

section Reads

variable {s : Cons} {queue edit : List UInt8} {rd : Reader} {er : Editor.Reader} {c : UInt8}

theorem take_over {n : ℤ} {got : List UInt8} (h : n ≤ got.length) (q : List UInt8) : Editor.take n q got = (q, got, true) := by
  cases q with
  | nil => rw [Editor.take, decide_eq_true h]
  | cons c q => rw [Editor.take, if_pos h]

theorem toInt_of_pos {x : BitVec 32} (h : 0 < x.toInt) : x.toInt = x.toNat ∧ x.toNat < 2 ^ 31 := by
  rw [BitVec.toInt_eq_toNat_cond] at h ⊢
  have := x.isLt
  split_ifs at h ⊢ <;> omega

theorem toInt_of_lt {x : BitVec 32} (h : x.toNat < 2 ^ 31) : x.toInt = x.toNat := by
  rw [BitVec.toInt_eq_toNat_cond]
  split_ifs <;> omega

theorem toNat_sub_one {x : BitVec 32} (h : 0 < x.toInt) : (x - 1).toNat = x.toNat - 1 := by
  have hx := toInt_of_pos h
  have h1 : BitVec.toNat (1 : BitVec 32) = 1 := rfl
  rw [BitVec.toNat_sub, h1]
  omega

theorem SameReader.ret_eq (h : SameReader rd er) : rd.ret = er.got.length := by
  by_cases hpos : 0 < rd.target.toInt
  · have hsum := h.rest hpos
    have hlt := (toInt_of_pos hpos).2
    have hsub : (rd.target - rd.n).toNat = rd.got.length := by
      rw [BitVec.toNat_sub]
      have := rd.n.isLt
      omega
    rw [Reader.ret, toInt_of_lt (by omega), hsub, h.got]
  · obtain ⟨hn, hgot⟩ := h.none (by omega)
    rw [Reader.ret, hn, BitVec.sub_self, ← h.got, hgot]
    rfl

/-- The loop goes on as long as the editor wants more. -/
theorem SameReader.more_iff (h : SameReader rd er) : 0 < rd.n.toInt ↔ ¬ er.n ≤ er.got.length := by
  rw [← h.target, ← h.got]
  by_cases hpos : 0 < rd.target.toInt
  · have hsum := h.rest hpos
    obtain ⟨ht, hlt⟩ := toInt_of_pos hpos
    rw [ht, toInt_of_lt (x := rd.n) (by omega)]
    omega
  · obtain ⟨hn, hgot⟩ := h.none (by omega)
    rw [hn, hgot, List.length_nil]
    omega

theorem SameReader.target_pos (h : SameReader rd er) (hn : 0 < rd.n.toInt) : 0 < rd.target.toInt := by
  by_contra hle
  rw [(h.none (by omega)).1] at hn
  exact hle hn

theorem SameReader.push (h : SameReader rd er) (hn : 0 < rd.n.toInt) (c : UInt8) :
    SameReader { rd with n := rd.n - 1, got := rd.got ++ [c] } { er with got := er.got ++ [c] } := by
  have hpos := h.target_pos hn
  have hsum := h.rest hpos
  have hnn := toInt_of_pos hn
  refine ⟨by simp [h.got], h.target, fun _ => ?_, fun hle => absurd hpos (by simpa using hle), h.dst⟩
  rw [List.length_append, List.length_singleton, toNat_sub_one hn]
  dsimp only
  omega

/-- The loop of `consoleread` does what the editor does with its queue. -/
theorem readLoop_spec (killed : Bool) (k : ℕ) (h : Buffers s queue edit) (hrd : SameReader rd er)
    (hk : 0 < rd.target.toInt → rd.n.toNat ≤ k) :
    let res := readLoop killed k s rd
    let out := Editor.take er.n queue er.got
    Buffers res.1 out.1 edit ∧ SameReader res.2.1 { er with got := out.2.1 } ∧
      res.2.2 = if out.2.2 then some (out.2.1.length : ℤ) else if killed then some (-1) else none := by
  induction k generalizing s rd er queue with
  | zero =>
    have hover : er.n ≤ er.got.length := by
      by_contra hmore
      have hn := hrd.more_iff.mpr hmore
      have h0 := hk (hrd.target_pos hn)
      have := toInt_of_pos hn
      omega
    rw [take_over hover, readLoop, hrd.ret_eq]
    exact ⟨h, hrd, rfl⟩
  | succ k ih =>
    by_cases hn : 0 < rd.n.toInt
    · have hmore := hrd.more_iff.mp hn
      have hpos := hrd.target_pos hn
      rw [readLoop, if_pos hn]
      cases queue with
      | nil =>
        rw [if_pos (h.queue_nil_iff.mpr rfl), Editor.take, decide_eq_false hmore]
        exact ⟨h, hrd, rfl⟩
      | cons c queue =>
        obtain ⟨hslot, hpop⟩ := h.pop
        rw [if_neg fun he => List.cons_ne_nil _ _ (h.queue_nil_iff.mp he), Editor.take, if_neg hmore, hslot]
        by_cases hD : c = ctrl 'D'
        · have hlt : rd.n.toNat < rd.target.toNat ↔ er.got ≠ [] := by
            rw [← List.length_pos_iff, ← hrd.got, ← hrd.rest hpos]
            omega
          simp only [if_pos hD, hrd.ret_eq, BitVec.add_sub_cancel]
          by_cases hgot : er.got = []
          · rw [if_neg (fun hc => hlt.mp hc hgot), if_pos hgot, hgot]
            rw [← hgot]
            exact ⟨hpop, hrd, rfl⟩
          · rw [if_pos (hlt.mpr hgot), if_neg hgot]
            exact ⟨h, hrd, rfl⟩
        · have hpush := hrd.push hn c
          simp only [if_neg hD, hrd.dst, if_true]
          by_cases hnl : c = newline
          · rw [if_pos hnl, if_pos hnl, hpush.ret_eq]
            exact ⟨hpop, hpush, rfl⟩
          · rw [if_neg hnl, if_neg hnl]
            refine ih hpop hpush fun _ => ?_
            have hle := hk hpos
            dsimp only
            rw [toNat_sub_one hn]
            omega
    · have hover : er.n ≤ er.got.length := not_not.mp fun hmore => hn (hrd.more_iff.mpr hmore)
      rw [take_over hover, readLoop, if_neg hn, hrd.ret_eq]
      exact ⟨h, hrd, rfl⟩

end Reads

section Steps

variable {σ u : Sys} {es : Editor.State} {a : Act}

theorem sameReading_update {reading : ℕ → Option Reader} {reading' : ℕ → Option Editor.Reader} {o : Option Reader}
    {o' : Option Editor.Reader} (h : ∀ p, SameReading (reading p) (reading' p)) (ho : SameReading o o') (p q : ℕ) :
    SameReading (Function.update reading p o q) (Function.update reading' p o' q) := by
  by_cases hq : q = p
  · rw [hq, Function.update_self, Function.update_self]
    exact ho
  · rw [Function.update_of_ne hq, Function.update_of_ne hq]
    exact h q

theorem Matches.run (h : Matches σ es) {rd : Reader} {er : Editor.Reader} (hrd : SameReader rd er) (p : ℕ) (killed : Bool) :
    Matches (σ.run p killed rd) (es.run p killed er) := by
  obtain ⟨hbuf, hrd', hres⟩ := readLoop_spec killed rd.n.toNat h.buffers hrd fun _ => le_rfl
  unfold Sys.run consoleread Editor.State.run
  revert hbuf hrd' hres
  generalize readLoop killed rd.n.toNat σ.cons rd = res
  generalize Editor.take er.n es.queue er.got = out
  obtain ⟨s, rd', o⟩ := res
  obtain ⟨q, got, done⟩ := out
  intro hbuf hrd' hres
  dsimp only at hbuf hrd' hres
  subst hres
  have hgot : rd'.got = got := hrd'.got
  have hidle : SameReading none none := trivial
  have hasleep : SameReading (some rd') (some { er with got := got }) := hrd'
  cases done with
  | true => exact ⟨hbuf, sameReading_update h.reading hidle p, by simp [h.returned, hgot]⟩
  | false =>
    cases killed with
    | true => exact ⟨hbuf, sameReading_update h.reading hidle p, by simp [h.returned, hgot]⟩
    | false => exact ⟨hbuf, sameReading_update h.reading hasleep p, h.returned⟩

theorem type_readers (c : UInt8) (es : Editor.State) :
    (Editor.type c es).reading = es.reading ∧ (Editor.type c es).returned = es.returned := by
  unfold Editor.type
  dsimp only
  split_ifs <;> exact ⟨rfl, rfl⟩

/-- The editor follows every step of the console. -/
theorem Matches.step (h : Matches σ es) (hc : Copies σ a) (hs : Console.step a σ = .ok u) :
    ∃ es', Editor.step a es = .ok es' ∧ Matches u es' := by
  cases a with
  | intr c =>
    cases hs
    obtain ⟨hreading, hreturned⟩ := type_readers c es
    refine ⟨Editor.type c es, rfl, consoleintr_spec h.buffers, fun p => ?_, ?_⟩
    · rw [hreading]
      exact h.reading p
    · rw [hreturned]
      exact h.returned
  | read p n dst killed =>
    have hp := h.reading p
    cases hr : σ.reading p with
    | some rd => simp [Console.step, hr] at hs
    | none =>
      cases he : es.reading p with
      | some er => simp [hr, he, SameReading] at hp
      | none =>
        simp only [Console.step, hr, Outcome.ok.injEq] at hs
        subst hs
        refine ⟨es.run p killed ⟨n.toInt, []⟩, by simp [Editor.step, he], h.run ?_ p killed⟩
        exact ⟨rfl, rfl, fun _ => rfl, fun _ => ⟨rfl, rfl⟩, hc⟩
  | resume p killed =>
    have hp := h.reading p
    cases hr : σ.reading p with
    | none => simp [Console.step, hr] at hs
    | some rd =>
      cases he : es.reading p with
      | none => simp [hr, he, SameReading] at hp
      | some er =>
        simp only [Console.step, hr, Outcome.ok.injEq] at hs
        subst hs
        rw [hr, he] at hp
        exact ⟨es.run p killed er, by simp [Editor.step, he], h.run hp p killed⟩

theorem start_matches : Matches start Editor.start :=
  ⟨⟨.nil _ _, by simp [start, Editor.start], List.not_mem_nil⟩, fun _ => trivial, rfl⟩

theorem run_matches {as : List Act} (hr : Run Console.step Copies start as u) :
    ∃ es, Run Editor.step Free Editor.start as es ∧ Matches u es := by
  induction hr with
  | nil => exact ⟨Editor.start, .nil, start_matches⟩
  | snoc _ hc hs ih =>
    obtain ⟨es, hrun, h⟩ := ih
    obtain ⟨es', hes, h'⟩ := h.step hc hs
    exact ⟨es', .snoc hrun trivial hes, h'⟩

end Steps

/-- **The console is a line editor.** Whatever is typed and whoever reads, in any order: the line editor can do the
same steps, and then the calls of `consoleread` have returned the same numbers and the same bytes, those still
asleep have got the same bytes, and the distances between the indices are the lengths of the editor's lists. -/
theorem console_refines_editor (as : List Act) (u : Sys) (hr : Run step Copies start as u) :
    ∃ es, Run Editor.step Free Editor.start as es ∧ u.returned = es.returned ∧
      (∀ p, (u.reading p).map Reader.got = (es.reading p).map Editor.Reader.got) ∧
      (u.cons.w - u.cons.r).toNat = es.queue.length ∧ (u.cons.e - u.cons.w).toNat = es.edit.length ∧
      (u.cons.e - u.cons.r).toNat = es.queue.length + es.edit.length ∧
      es.queue.length + es.edit.length ≤ INPUT_BUF_SIZE := by
  obtain ⟨es, hrun, h⟩ := run_matches hr
  refine ⟨es, hrun, h.returned, fun p => ?_, h.buffers.committed, h.buffers.edits, h.buffers.used, h.buffers.length_le⟩
  have hp := h.reading p
  revert hp
  cases u.reading p with
  | none =>
    cases es.reading p with
    | none => exact fun _ => rfl
    | some er => exact False.elim
  | some rd =>
    cases es.reading p with
    | none => exact False.elim
    | some er => exact fun hp => congrArg some hp.got

/-- "ab", a backspace, "c" and a control-D are typed; a read of ten bytes gets "ac", the next one nothing. -/
def typeAndRead : List Act :=
  [.read 1 10 (fun _ => true) false, .intr 97, .intr 98, .intr (ctrl 'H'), .intr 99, .intr (ctrl 'D'), .resume 1 false,
    .read 2 10 (fun _ => true) false]

theorem typeAndRead_ok : (execIf step (fun _ _ => true) typeAndRead start).Sat fun u =>
    u.returned = [(1, 2, [97, 99]), (2, 0, [])] := by
  decide +kernel

theorem console_refines_editor_typeAndRead : ∃ u es, Run step Copies start typeAndRead u ∧
    Run Editor.step Free Editor.start typeAndRead es ∧ es.returned = [(1, 2, [97, 99]), (2, 0, [])] := by
  obtain ⟨u, hu, hret⟩ := typeAndRead_ok.ok
  have hrun : Run step Copies start typeAndRead u := (run_of_execIf hu).labels (by simp [typeAndRead, Copies])
  obtain ⟨es, hes, hsame, -⟩ := console_refines_editor typeAndRead u hrun
  exact ⟨u, es, hrun, hes, hsame ▸ hret⟩

end Xv6.Console
