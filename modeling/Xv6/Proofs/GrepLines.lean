import Xv6.Proofs.RegexMatch
import Xv6.Sanity.Ulib

/-! `grep` over a stream. Between two reads the buffer starts with the part of the input that is not yet dealt with, and no
line of it is complete before a NUL. -/

namespace Xv6.Grep

open Ulib

section Stream

/-- The lines of the input that end in a newline, without it. -/
def completeLines (input : List UInt8) : List (List UInt8) := (input.splitOn 10).dropLast

/-- A line that the buffer holds as a string. -/
def Fit (line : List UInt8) : Prop := 0 ∉ line ∧ line.length ≤ 1022

instance (line : List UInt8) : Decidable (Fit line) := inferInstanceAs (Decidable (_ ∧ _))

def accepted (re line : List UInt8) : Bool :=
  match matchText re line (2 * re.length + line.length + 2) with
  | .ok b => b
  | .error _ => false

/-- The accepted lines among those before the first that does not fit. -/
def selected (re input : List UInt8) : List (List UInt8) :=
  ((completeLines input).takeWhile (Fit ·)).filter (accepted re)

/-- The bytes of lines. -/
def unlines (ls : List (List UInt8)) : List UInt8 := ls.flatMap (· ++ [10])

variable {re line s t : List UInt8}

theorem completeLines_cons (h : 10 ∉ line) : completeLines (line ++ 10 :: s) = line :: completeLines s := by
  have hsep : ∀ x ∈ line, (x == 10) = false := fun x hx => beq_false_of_ne fun he => h (he ▸ hx)
  rw [completeLines, List.splitOn, List.splitOnP_append_cons_of_forall_mem hsep _ rfl,
    List.dropLast_cons_of_ne_nil (List.splitOnP_ne_nil _ _)]
  rfl

theorem completeLines_none (h : 10 ∉ s) : completeLines s = [] := by
  rw [completeLines, List.splitOn_eq_singleton h]
  rfl

theorem selected_cons (h : 10 ∉ line) (hfit : Fit line) :
    unlines (selected re (line ++ 10 :: s)) = (if accepted re line then line ++ [10] else []) ++ unlines (selected re s) := by
  rw [selected, completeLines_cons h, List.takeWhile_cons_of_pos (by simpa using hfit), List.filter_cons]
  split_ifs <;> rfl

theorem selected_unfit (h : 10 ∉ line) (hfit : ¬ Fit line) : selected re (line ++ 10 :: s) = [] := by
  rw [selected, completeLines_cons h, List.takeWhile_cons_of_neg (by simpa using hfit)]
  rfl

/-- No line of `s` is complete before a NUL. -/
def Stuck (s : List UInt8) : Prop := ∀ line t, s = line ++ 10 :: t → 0 ∈ line

/-- Nothing comes of an input whose start is stuck, if that is all of it or fills the buffer. -/
theorem Stuck.selected (h : Stuck s) (hend : t = [] ∨ 1023 ≤ s.length) : selected re (s ++ t) = [] := by
  by_cases hnl : 10 ∈ s ++ t
  · obtain ⟨line, rest, heq, hline⟩ := List.eq_append_cons_of_mem hnl
    rw [heq]
    refine selected_unfit hline fun ⟨hnul, hlen⟩ => ?_
    -- the newline is in `s`, or `s` is a start of the line
    rcases List.append_eq_append_iff.mp heq with ⟨a, rfl, ha⟩ | ⟨a, rfl, ha⟩
    · rw [List.length_append] at hlen
      rcases hend with rfl | hfull
      · exact absurd ha.symm (by simp)
      · omega
    · rcases List.cons_eq_append_iff.mp ha with ⟨rfl, ha⟩ | ⟨a, rfl, -⟩
      · rcases hend with rfl | hfull
        · cases ha
        · rw [List.append_nil] at hfull
          omega
      · exact hnul (h line a rfl)
  · rw [Grep.selected, completeLines_none hnl]
    rfl

end Stream

section Buffer

variable {a b line s junk buf piece : List UInt8} {x c : UInt8}

theorem store_append : store (a ++ x :: b) a.length c = .ok (a ++ c :: b) := by
  rw [store_eq (by simp)]
  simp

theorem fill_append (h : piece.length ≤ junk.length) :
    fill a.length piece (a ++ junk) = .ok (a ++ piece ++ junk.drop piece.length) := by
  induction piece generalizing a junk with
  | nil => simp [fill, pure, Except.pure]
  | cons c piece ih =>
    cases junk with
    | nil => simp at h
    | cons x junk =>
      have hrest := @ih (a ++ [c]) junk (by simpa using h)
      rw [fill, store_append, ok_bind]
      simpa using hrest

theorem cstring_append (h : 0 ∉ line) : cstring (line ++ 0 :: junk) = .ok line := by
  induction line with
  | nil => rfl
  | cons c line ih =>
    obtain ⟨hc, hline⟩ := not_or.mp (mt List.mem_cons.mpr h)
    rw [List.cons_append, cstring, if_neg (Ne.symm hc), ih hline]
    rfl

/-- `strchr` finds a newline before the NUL at the end, or the string is stuck. -/
theorem strchr_cases (s junk : List UInt8) :
    (strchr 10 (s ++ 0 :: junk) = .ok none ∧ Stuck s) ∨
    ∃ line t, s = line ++ 10 :: t ∧ 0 ∉ line ∧ 10 ∉ line ∧ strchr 10 (s ++ 0 :: junk) = .ok (some line.length) := by
  induction s with
  | nil => exact .inl ⟨rfl, fun line t h => by simp at h⟩
  | cons c s ih =>
    rw [List.cons_append, strchr]
    split_ifs with h0 h10
    · refine .inl ⟨rfl, fun line t h => ?_⟩
      cases line with
      | nil => cases h0.symm.trans (List.cons.inj h).1
      | cons d line => exact List.mem_cons.mpr (.inl (h0.symm.trans (List.cons.inj h).1))
    · exact .inr ⟨[], s, by rw [h10]; rfl, List.not_mem_nil, List.not_mem_nil, rfl⟩
    · rcases ih with ⟨hnone, hstuck⟩ | ⟨line, t, rfl, hnul, hnl, hsome⟩
      · rw [hnone]
        refine .inl ⟨rfl, fun line t h => ?_⟩
        cases line with
        | nil => exact absurd (List.cons.inj h).1 h10
        | cons d line => exact List.mem_cons_of_mem _ (hstuck line t (List.cons.inj h).2)
      · rw [hsome]
        refine .inr ⟨c :: line, t, rfl, ?_, ?_, rfl⟩
        · exact mt List.mem_cons.mp (not_or.mpr ⟨Ne.symm h0, hnul⟩)
        · exact mt List.mem_cons.mp (not_or.mpr ⟨Ne.symm h10, hnl⟩)

theorem request_eq {m : ℕ} (hm : m ≤ 1023) : request m = 1023 - m := by
  unfold request
  omega

/-- After `memmove(buf, p, m)` the buffer starts with what was at `p`. -/
theorem memmove_start {pre : List UInt8} {m : ℕ} (hm : m = s.length) :
    ∃ junk', memmove 0 pre.length m (pre ++ (s ++ junk)) = .ok (s ++ junk') ∧
      s.length + junk'.length = pre.length + (s.length + junk.length) := by
  subst hm
  obtain ⟨buf, hrun, hlen, hget⟩ := @memmove_moved (pre ++ (s ++ junk)) 0 pre.length s.length
    (by simp only [List.length_append]; omega) (by simp only [List.length_append]; omega)
  have hstart : buf.take s.length = s := by
    refine List.ext_getElem? fun i => ?_
    by_cases hi : i < s.length
    · rw [List.getElem?_take_of_lt hi, hget, if_pos (by omega), Nat.sub_zero, List.getElem?_append_right (by omega),
        Nat.add_sub_cancel_left, List.getElem?_append_left hi]
    · rw [List.getElem?_eq_none (by rw [List.length_take]; omega), List.getElem?_eq_none (by omega)]
  have hsplit := List.take_append_drop s.length buf
  rw [hstart] at hsplit
  have hsum := (congrArg List.length hsplit).trans hlen
  exact ⟨buf.drop s.length, by rw [hrun, hsplit], by simpa only [List.length_append] using hsum⟩

end Buffer

section Loops

variable {re : List UInt8} (hre : 0 ∉ re)

include hre

theorem matchAt_eq {line junk : List UInt8} (h : 0 ∉ line) : matchAt re (line ++ 0 :: junk) = .ok (accepted re line) := by
  obtain ⟨b, hb, -⟩ := matchText_tells hre h (n := 2 * re.length + line.length + 2) (by omega)
  rw [matchAt, cstring_append h, ok_bind, hb, accepted, hb]

/-- The inner loop deals with the lines of `s` and stops at a rest that is stuck. -/
theorem lines_spec (n : ℕ) {pre s junk out : List UInt8} (hn : s.length < n) (hs : s.length ≤ 1023) :
    ∃ pre' s' out', lines re n (pre ++ (s ++ 0 :: junk)) pre.length out =
        .ok (pre' ++ (s' ++ 0 :: junk), pre'.length, out') ∧
      pre'.length + s'.length = pre.length + s.length ∧ Stuck s' ∧
      ∀ rest, out' ++ unlines (selected re (s' ++ rest)) = out ++ unlines (selected re (s ++ rest)) := by
  induction n generalizing pre s out with
  | zero => omega
  | succ n ih =>
    rw [lines, List.drop_left]
    rcases strchr_cases s junk with ⟨hnone, hstuck⟩ | ⟨line, t, rfl, hnul, hnl, hsome⟩
    · rw [hnone]
      exact ⟨pre, s, out, rfl, rfl, hstuck, fun _ => rfl⟩
    · rw [hsome, ok_bind]
      simp only [List.length_append, List.length_cons] at hn hs
      have hput : ∀ x y : UInt8, store (pre ++ (line ++ x :: (t ++ 0 :: junk))) (pre.length + line.length) y =
          .ok (pre ++ (line ++ y :: (t ++ 0 :: junk))) := by
        intro x y
        simpa only [List.append_assoc, List.length_append] using @store_append (pre ++ line) (t ++ 0 :: junk) x y
      have hsel : ∀ rest, unlines (selected re (line ++ 10 :: (t ++ rest))) =
          (if accepted re line then line ++ [10] else []) ++ unlines (selected re (t ++ rest)) :=
        fun rest => selected_cons hnl ⟨hnul, by omega⟩
      -- what is at the newline does not matter for the rest
      have hgo : ∀ x, ∃ pre' s' out', lines re n (pre ++ (line ++ x :: (t ++ 0 :: junk))) (pre.length + line.length + 1)
            (out ++ if accepted re line then line ++ [10] else []) = .ok (pre' ++ (s' ++ 0 :: junk), pre'.length, out') ∧
          pre'.length + s'.length = pre.length + (line ++ 10 :: t).length ∧ Stuck s' ∧
          ∀ rest, out' ++ unlines (selected re (s' ++ rest)) =
            out ++ unlines (selected re (line ++ 10 :: (t ++ rest))) := by
        intro x
        obtain ⟨pre', s', out', hrun, hlen, hstuck, hout⟩ := @ih (pre ++ (line ++ [x])) t
          (out ++ if accepted re line then line ++ [10] else []) (by omega) (by omega)
        refine ⟨pre', s', out', ?_, ?_, hstuck, fun rest => ?_⟩
        · simpa only [List.append_assoc, List.cons_append, List.nil_append, List.length_append, List.length_singleton,
            ← Nat.add_assoc] using hrun
        · simp only [List.length_append, List.length_cons, List.length_nil] at hlen ⊢
          omega
        · rw [hout, hsel, List.append_assoc]
      simp only [List.append_assoc, List.cons_append, hput, ok_bind, List.drop_left, matchAt_eq hre hnul]
      cases hacc : accepted re line with
      | true =>
        have htake : (line ++ 10 :: (t ++ 0 :: junk)).take (pre.length + line.length + 1 - pre.length) = line ++ [10] := by
          rw [show pre.length + line.length + 1 - pre.length = line.length + 1 by omega, List.take_append]
          simp
        simpa only [htake, hacc, if_true] using hgo 10
      | false => simpa only [hacc, List.append_nil, Bool.false_eq_true, if_false] using hgo 0

/-- The outer loop, with `s` in the buffer and the input still to come. -/
theorem grepFrom_spec (cut : ℕ → ℕ) (n : ℕ) {k : ℕ} {input s junk out : List UInt8} (hn : input.length + 1024 < n)
    (hbuf : s.length + junk.length = 1024) (hs : s.length ≤ 1023) (hstuck : Stuck s) :
    grepFrom re cut n k input (s ++ junk) s.length out = .ok (out ++ unlines (selected re (s ++ input))) := by
  induction n generalizing k input s junk out with
  | zero => omega
  | succ n ih =>
    rw [grepFrom, request_eq hs]
    obtain ⟨l, hl⟩ : ∃ l, l = pieceLength (cut k) (1023 - s.length) input.length := ⟨_, rfl⟩
    have hlen : l ≤ 1023 - s.length ∧ l ≤ input.length ∧ (l = 0 → 1023 ≤ s.length ∨ input.length = 0) := by
      unfold pieceLength at hl
      omega
    simp only [← hl]
    by_cases h0 : l = 0
    · rw [if_pos h0]
      have hend : input = [] ∨ 1023 ≤ s.length := (hlen.2.2 h0).symm.imp_left List.length_eq_zero_iff.mp
      rw [hstuck.selected hend]
      exact congrArg Except.ok (List.append_nil out).symm
    · have htake : (input.take l).length = l := List.length_take_of_le hlen.2.1
      have hfill := @fill_append s junk (input.take l) (by omega)
      obtain ⟨x, junk', hjunk⟩ : ∃ x junk', junk.drop l = x :: junk' :=
        List.exists_cons_of_length_pos (by rw [List.length_drop]; omega)
      have hjunk' : junk'.length + 1 = junk.length - l := by rw [← List.length_drop, hjunk, List.length_cons]
      rw [htake, hjunk] at hfill
      have hstore := @store_append (s ++ input.take l) junk' x 0
      rw [List.length_append, htake] at hstore
      obtain ⟨pre, s', out', hrun, hsum, hstuck', hout⟩ :=
        @lines_spec re hre n [] (s ++ input.take l) junk' out (by simp only [List.length_append]; omega)
          (by simp only [List.length_append]; omega)
      simp only [List.length_append, htake, List.length_nil, Nat.zero_add] at hsum
      obtain ⟨junk2, hmove, hlen2⟩ := @memmove_start s' (0 :: junk') pre (s.length + l - pre.length) (by omega)
      rw [List.length_cons] at hlen2
      have hrest := @ih (k + 1) (input.drop l) s' junk2 out' (by rw [List.length_drop]; omega) (by omega) (by omega) hstuck'
      rw [List.nil_append, List.length_nil] at hrun
      simp only [if_neg h0, if_pos (show s.length + l > 0 by omega), hfill, hstore, hrun, hmove, ok_bind]
      rw [show s.length + l - pre.length = s'.length by omega, hrest, hout, List.append_assoc, List.take_append_drop]

/-- **The output does not depend on how the input arrives.** Whatever the pieces are that `read` returns, `grep` ends, touches
no byte outside of its buffer, and writes the accepted lines among those before the first that does not fit. -/
theorem grep_selects {buf : List UInt8} (hbuf : buf.length = 1024) (cut : ℕ → ℕ) (input : List UInt8) {n : ℕ}
    (hn : input.length + 1024 < n) : grep re cut n input buf = .ok (unlines (selected re input)) :=
  @grepFrom_spec re hre cut n 0 input [] buf [] hn (by simpa using hbuf) (by decide) fun line t h => by simp at h

end Loops

/-- `a` in `b`, `ab`, `c` with the pieces of `cut` one byte each. -/
theorem grep_selects_bytewise :
    grep [97] (fun _ => 1) 2000 [98, 10, 97, 98, 10, 99, 10] (List.replicate 1024 0) =
      .ok (unlines (selected [97] [98, 10, 97, 98, 10, 99, 10])) :=
  grep_selects (by decide) List.length_replicate _ _ (by decide)

end Xv6.Grep
