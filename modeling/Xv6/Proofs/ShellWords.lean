import Xv6.Proofs.ShellGrammar

/-! `nulterminate` keeps the words of the tree. -/

namespace Xv6.Sh

open Wp

variable {text : List UInt8} {c : Cmd Span}

/-- A word is what `gettoken` delimits from its start on. -/
theorem Word.gettoken {a : Span} {w : List UInt8} (h0 : 0 ∉ text) (h : Word text a w) :
    ∃ s, Sh.gettoken text a.1 = .ok ((97, a.1, a.2), s) := by
  obtain ⟨b, hb, hbyte⟩ := h.stops.pass a.1 le_rfl h.lt
  have hstart : Skips text a.1 a.1 := by
    refine ⟨le_rfl, h.lt.le.trans h.stops.inside, fun i hlo hhi => absurd hhi (by omega), fun d hd => ?_⟩
    obtain rfl : b = d := Option.some.inj (hb.symm.trans hd)
    simp only [isWordByte, Bool.and_eq_true, Bool.not_eq_true'] at hbyte
    exact hbyte.1
  obtain ⟨s, -, hrun⟩ := gettoken_word h0 hstart h
  exact ⟨s, hrun⟩

/-- The end of a word is not inside of another one. -/
theorem Word.end_outside {a b : Span} {w v : List UInt8} (ha : Word text a w) (hb : Word text b v) :
    ¬ (a.1 ≤ b.2 ∧ b.2 < a.2) := by
  rintro ⟨hlo, hhi⟩
  obtain ⟨x, hx, hbyte⟩ := ha.stops.pass b.2 hlo hhi
  rw [hb.stops.stop x hx] at hbyte
  cases hbyte

/-- **Every token is preserved.** If the parser succeeds, `nulterminate` writes inside of the buffer, and every word of the tree
is, as a string of the modified buffer, the bytes that `gettoken` delimited in the input; no terminator is inside of a word. -/
theorem nulterminate_preserves (h0 : 0 ∉ text) {s : ℕ} (hparse : parseline text (4 * text.length + 4) 0 = .ok (c, s)) :
    ∃ buf, nulterminate c (text ++ [0]) = .ok buf ∧ (∀ r, parsecmd text = .ok r → r = (c, buf)) ∧
      (∀ a ∈ c.words, (∃ s s', Sh.gettoken text s = .ok ((97, a.1, a.2), s')) ∧
        cstring buf a.1 = (text.drop a.1).take (a.2 - a.1) ∧ a.2 < (text ++ [0]).length) ∧
      ∀ a ∈ c.words, ∀ b ∈ c.words, ¬ (a.1 ≤ b.2 ∧ b.2 < a.2) := by
  obtain ⟨ts, hts⟩ := exists_toks text.length 0 (Nat.zero_le _) (Nat.zero_add _).ge
  have hle := hts.length_le
  obtain ⟨us, rest, d, -, -, -, hshow⟩ :=
    wp_ok ((parse_sound h0 (4 * text.length + 4)).1 0 ts hts (by omega)) hparse
  obtain ⟨buf, hrun, hwords⟩ := nulterminate_words h0 hshow.words
  refine ⟨buf, hrun, fun r hr => ?_, fun a ha => ?_, fun a ha b hb => ?_⟩
  · simp only [parsecmd, hparse, bind, Except.bind] at hr
    cases hpeek : peek text [] s with
    | error e =>
      rw [hpeek] at hr
      cases hr
    | ok x =>
      simp only [hpeek] at hr
      split_ifs at hr
      rw [hrun] at hr
      exact (Except.ok.inj hr).symm
  · obtain ⟨w, hw⟩ := hshow.words a ha
    obtain ⟨s', hs'⟩ := hw.gettoken h0
    refine ⟨⟨a.1, s', hs'⟩, (hwords a ha w hw).trans hw.bytes, ?_⟩
    rw [List.length_append]
    exact Nat.lt_succ_of_le hw.stops.inside
  · obtain ⟨w, hw⟩ := hshow.words a ha
    obtain ⟨v, hv⟩ := hshow.words b hb
    exact hw.end_outside hv

/-- `a>b` -/
theorem nulterminate_preserves_redir : ∃ buf, nulterminate (.redir (.exec [(0, 1)]) (2, 3) 0x601 1) [97, 62, 98, 0] = .ok buf ∧
    cstring buf 0 = [97] ∧ cstring buf 2 = [98] := by
  have hparse : parseline [97, 62, 98] 16 0 = .ok (.redir (.exec [(0, 1)]) (2, 3) 0x601 1, 3) := by decide +kernel
  obtain ⟨buf, hrun, -, hwords, -⟩ := nulterminate_preserves (by decide) hparse
  exact ⟨buf, hrun, (hwords (0, 1) (by decide)).2.1, (hwords (2, 3) (by decide)).2.1⟩

end Xv6.Sh
