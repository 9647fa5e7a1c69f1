import Xv6.Proofs.PrintfNumbers
import Xv6.Spec.TextCount

/-! What `wc` prints is the numbers of lines, words and bytes of its input, however the input arrives; and `atoi` reads the
numbers that `printf` prints. -/

namespace Xv6.Wc

open Ulib (Stop strchr ok_bind)
open Printf

section Words

def isSpace (b : UInt8) : Bool := [32, 13, 9, 10, 11].contains b

/-- The words of a text: what stands between separators. -/
def words (s : List UInt8) : List (List UInt8) := (s.splitOnP isSpace).filter (· ≠ [])

/-- How many words a text adds, after a separator and in a word. -/
def newWords : Bool → List UInt8 → ℕ
  | false, s => (words s).length
  | true, s => ((s.splitOnP isSpace).tail.filter (· ≠ [])).length

theorem newWords_space {b : UInt8} (hb : isSpace b = true) (inword : Bool) (s : List UInt8) :
    newWords inword (b :: s) = newWords false s := by
  cases inword <;> simp [newWords, words, List.splitOnP_cons_eq_if_modifyHead, hb]

theorem newWords_letter {b : UInt8} (hb : isSpace b = false) (inword : Bool) (s : List UInt8) :
    newWords inword (b :: s) = (if inword then 0 else 1) + newWords true s := by
  obtain ⟨w, ws, hws⟩ := List.exists_cons_of_ne_nil (List.splitOnP_ne_nil isSpace s)
  cases inword <;> simp [newWords, words, List.splitOnP_cons_eq_if_modifyHead, hb, hws, Nat.add_comm]

theorem newWords_le (inword : Bool) (s : List UInt8) : newWords inword s ≤ s.length := by
  induction s generalizing inword with
  | nil => cases inword <;> simp [newWords, words]
  | cons b s ih =>
    cases hb : isSpace b with
    | true =>
      rw [newWords_space hb]
      exact (ih false).trans (Nat.le_succ _)
    | false =>
      have := ih true
      rw [newWords_letter hb, List.length_cons]
      split_ifs <;> omega

end Words

section Loop

theorem strchr_eq (b : UInt8) {s : List UInt8} (h : 0 ∉ s) : ∃ r, strchr b (s ++ [0]) = .ok r ∧ r.isSome = s.contains b := by
  induction s with
  | nil => exact ⟨none, rfl, rfl⟩
  | cons c s ih =>
    rw [List.mem_cons, not_or] at h
    obtain ⟨r, hr, hsome⟩ := ih h.2
    rw [List.cons_append, strchr, if_neg (Ne.symm h.1), hr, List.contains_cons, ← hsome]
    split_ifs with hb <;> exact ⟨_, rfl, by simp [hb, eq_comm (a := b)]⟩

theorem count_eq (s : Counts) (b : UInt8) : count s b = .ok
    ⟨s.l + if b = 10 then 1 else 0, s.w + if isSpace b || s.inword then 0 else 1, s.c + 1, !isSpace b⟩ := by
  obtain ⟨r, hr, hspace⟩ := strchr_eq b (s := [32, 13, 9, 10, 11]) (by decide)
  rw [count, show strchr b separators = _ from hr, isSpace, ← hspace]
  cases r <;> cases s.inword <;> by_cases hb : b = 10 <;> simp [hb, pure, Except.pure, bind, Except.bind]

/-- The counts after `text`. -/
def Counts.after (s : Counts) (text : List UInt8) : Counts where
  l := s.l + BitVec.ofNat 32 (text.count 10)
  w := s.w + BitVec.ofNat 32 (newWords s.inword text)
  c := s.c + BitVec.ofNat 32 text.length
  inword := text.foldl (fun _ b => !isSpace b) s.inword

theorem count_fold (s : Counts) (text : List UInt8) : text.foldlM count s = .ok (s.after text) := by
  induction text generalizing s with
  | nil => cases s with | mk l w c inword => cases inword <;> simp [Counts.after, newWords, words, pure, Except.pure]
  | cons b text ih =>
    rw [List.foldlM_cons, count_eq, ok_bind, ih]
    simp only [Counts.after, Except.ok.injEq, Counts.mk.injEq, List.foldl_cons, and_true]
    refine ⟨?_, ?_, ?_⟩
    · rw [List.count_cons, Nat.add_comm, BitVec.ofNat_add, add_assoc]
      by_cases hb : b = 10 <;> simp [hb]
    · cases hb : isSpace b with
      | true => simp [newWords_space hb]
      | false =>
        rw [newWords_letter hb, BitVec.ofNat_add, ← add_assoc]
        cases s.inword <;> simp
    · rw [List.length_cons, Nat.add_comm, BitVec.ofNat_add, add_assoc]
      rfl

/-- The pieces in which the input arrives do not matter. -/
theorem wcFrom_eq {cut : ℕ → Option ℕ} (hcut : ∀ k, cut k ≠ none) {n : ℕ} (k : ℕ) (input : List UInt8) (s : Counts)
    (hn : input.length < n) : wcFrom cut n k input s = .ok (s.after input, false) := by
  induction n generalizing k input s with
  | zero => omega
  | succ n ih =>
    obtain ⟨want, hwant⟩ := Option.ne_none_iff_exists'.mp (hcut k)
    rw [wcFrom, hwant]
    simp only
    split_ifs with hl
    · obtain rfl : input = [] := by
        refine List.eq_nil_of_length_eq_zero ?_
        simp only [Grep.pieceLength] at hl
        omega
      exact congrArg (Except.map (·, false)) (count_fold s [])
    · have hle : Grep.pieceLength want 512 input.length ≤ input.length := by
        simp only [Grep.pieceLength]
        omega
      generalize Grep.pieceLength want 512 input.length = l at hl hle
      have hfold := count_fold s (input.take l ++ input.drop l)
      rw [List.foldlM_append, count_fold, ok_bind, count_fold, List.take_append_drop] at hfold
      rw [count_fold, ok_bind, ih _ _ _ (by rw [List.length_drop]; omega), Except.ok.inj hfold]

end Loop

section Numbers

/-- A number in decimal. -/
def decimal (v : ℕ) : List UInt8 := numeral (User.digits.getD · 0) 10 v

theorem given_int {v : ℕ} (hv : v < 2 ^ 31) : given true (widened .signed .int ((BitVec.ofNat 32 v).signExtend 64)) = v := by
  have hcut : ((BitVec.ofNat 32 v).signExtend 64).setWidth 32 = BitVec.ofNat 32 v :=
    BitVec.eq_of_getLsbD_eq fun i hi => by simp [BitVec.getLsbD_signExtend, hi]; omega
  refine (@given_widened .signed .int _).trans ?_
  rw [value, hcut]
  simp [BitVec.toInt_eq_toNat_cond]
  omega

theorem vprintf_int {v : ℕ} (hv : v < 2 ^ 31) (rest : List UInt8) (args : List Arg) :
    User.vprintf (37 :: 100 :: rest) (.word ((BitVec.ofNat 32 v).signExtend 64) :: args) =
      (do return decimal v ++ (← User.vprintf rest args)) := by
  have hrun := (@printintWide_eq User.digits 10 (.inl rfl) 32 (widened .signed .int ((BitVec.ofNat 32 v).signExtend 64)) true
    (by rw [given_int hv]; omega)).1
  rw [given_int hv] at hrun
  obtain ⟨c0, fmt, skip, hletters, hskip, hconv⟩ := @conversion_letters .signed .int _ User.digits User.printint rest args _ hrun
  change User.vprintf (37 :: (letters .signed .int ++ rest)) _ = _
  rw [hletters, User.vprintf, User.vprintfFrom, if_pos rfl, User.vprintfFrom]
  simp only [hconv, ok_bind, hskip]
  rfl

/-- A character that is no `%` is printed as it is. -/
theorem vprintf_char {b : UInt8} (hb : b ≠ 37) (rest : List UInt8) (args : List Arg) :
    User.vprintf (b :: rest) args = (do return b :: (← User.vprintf rest args)) := by
  rw [User.vprintf, User.vprintfFrom, if_neg hb]

/-- **`wc` counts.** However the input arrives, what is printed is the numbers of its newlines, words and bytes. -/
theorem wc_counts {cut : ℕ → Option ℕ} (hcut : ∀ k, cut k ≠ none) {n : ℕ} {input : List UInt8} (hn : input.length < n)
    (hlen : input.length < 2 ^ 31) (name : List UInt8) : wc cut n input name =
      .ok (decimal (input.count 10) ++ 32 :: (decimal (words input).length ++ 32 :: (decimal input.length ++ 32 :: (name ++ [10])))) := by
  have hlines : input.count 10 < 2 ^ 31 := List.count_le_length.trans_lt hlen
  have hwords : (words input).length < 2 ^ 31 := (newWords_le false input).trans_lt hlen
  rw [wc, wcFrom_eq hcut 0 input _ hn, ok_bind]
  simp only [Bool.false_eq_true, if_false, Counts.after, newWords, zero_add, format]
  rw [vprintf_int hlines, vprintf_char (by decide), vprintf_int hwords, vprintf_char (by decide), vprintf_int hlen,
    vprintf_char (by decide)]
  simp [User.vprintf, User.vprintfFrom, conversion, lookahead, vaStr, pure, Except.pure, bind, Except.bind]

/-- `"a b\n"` in pieces of one byte. -/
theorem wc_counts_bytewise : wc (fun _ => some 1) 5 [97, 32, 98, 10] [102] = .ok [49, 32, 50, 32, 52, 32, 102, 10] :=
  (wc_counts (by simp) (by decide) (by decide) [102]).trans (by decide)

/-- A decimal digit, read in two ways. -/
theorem readDigit_ten {b : UInt8} {v v' : ℕ} (h : readDigit 10 v b = some v') :
    (48 ≤ b ∧ b ≤ 57) ∧ BitVec.ofNat 32 v * 10 + b.toBitVec.setWidth 32 - 48 = BitVec.ofNat 32 v' := by
  obtain ⟨d, hd, h⟩ := Option.bind_eq_some_iff.mp h
  simp only [digitValue, UInt8.le_iff_toNat_le] at hd ⊢
  split_ifs at hd h with h1 h2 h3 h4
  all_goals obtain rfl := Option.some.inj hd
  · obtain rfl := Option.some.inj h
    refine ⟨h1, BitVec.eq_of_toNat_eq ?_⟩
    simp at h1 ⊢
    omega
  all_goals simp at *
  all_goals omega

/-- `atoi` reads digits as they are read one by one. -/
theorem atoiFrom_digits {chars : List UInt8} {v x : ℕ} (h : chars.foldlM (readDigit 10) v = some x) {c : UInt8}
    (hc : ¬ (48 ≤ c ∧ c ≤ 57)) (rest : List UInt8) : atoiFrom (chars ++ c :: rest) (BitVec.ofNat 32 v) = .ok (BitVec.ofNat 32 x) := by
  induction chars generalizing v with
  | nil =>
    obtain rfl := Option.some.inj h
    rw [List.nil_append, atoiFrom, if_neg hc]
    rfl
  | cons b chars ih =>
    rw [List.foldlM_cons] at h
    obtain ⟨v', hv', h⟩ := Option.bind_eq_some_iff.mp h
    obtain ⟨hb, hstep⟩ := readDigit_ten hv'
    rw [List.cons_append, atoiFrom, if_pos hb, hstep, ih h]

/-- **`atoi` reads what `printf` prints.** The characters of a `%d` that is not negative, before anything but a digit, are
read as the number. -/
theorem atoi_reads_printf {v : ℕ} (hv : v < 2 ^ 31) :
    (∀ rest args, User.vprintf (37 :: 100 :: rest) (.word ((BitVec.ofNat 32 v).signExtend 64) :: args) =
      (do return decimal v ++ (← User.vprintf rest args))) ∧
    ∀ c rest, ¬ (48 ≤ c ∧ c ≤ 57) → atoi (decimal v ++ c :: rest) = .ok (BitVec.ofNat 32 v) := by
  refine ⟨vprintf_int hv, fun c rest hc => ?_⟩
  have hread := @readNat_digits User.digits 10 User.table (by decide) _ (canonical_lt (by decide) (x := v))
  rw [ofDigits_canonical] at hread
  exact atoiFrom_digits hread hc rest

/-- 2025, printed and read back. -/
theorem atoi_reads_printf_2025 : User.vprintf [37, 100] [.word ((2025 : BitVec 32).signExtend 64)] = .ok [50, 48, 50, 53] ∧
    atoi [50, 48, 50, 53, 0] = .ok 2025 := by
  have hchars : decimal 2025 = [50, 48, 50, 53] := by decide
  obtain ⟨hprint, hread⟩ := atoi_reads_printf (v := 2025) (by decide)
  rw [hchars] at hprint hread
  exact ⟨(hprint [] []).trans (by simp [User.vprintf, User.vprintfFrom]; rfl), hread 0 [] (by decide)⟩

end Numbers

end Xv6.Wc
