import Xv6.Spec.ShGrammar

/-! What `peek` and `gettoken` do, in terms of the tokens that are left. -/

namespace Xv6.Sh

open Wp

variable {text : List UInt8} {test : UInt8 → Bool} {s e e' q eq : ℕ} {t : Tok} {ts : List Tok}

section Scan

/-- From `s` on, `e` is the first place that fails the test, or the end. -/
structure Stops (text : List UInt8) (test : UInt8 → Bool) (s e : ℕ) : Prop where
  le : s ≤ e
  inside : e ≤ text.length
  pass : ∀ i, s ≤ i → i < e → ∃ c, text[i]? = some c ∧ test c = true
  stop : ∀ c, text[e]? = some c → test c = false

theorem Stops.unique (h : Stops text test s e) (h' : Stops text test s e') : e = e' := by
  rcases Nat.lt_trichotomy e e' with hlt | heq | hgt
  · obtain ⟨c, hc, ht⟩ := h'.pass e h.le hlt
    rw [h.stop c hc] at ht
    cases ht
  · exact heq
  · obtain ⟨c, hc, ht⟩ := h.pass e' h'.le hgt
    rw [h'.stop c hc] at ht
    cases ht

theorem Stops.again (h : Stops text test s e) : Stops text test e e :=
  ⟨le_rfl, h.inside, fun _ hle hlt => absurd hlt (Nat.not_lt.mpr hle), h.stop⟩

theorem deref_of_lt (h : s < text.length) : deref text s = .ok text[s] := by
  rw [deref, List.getElem?_eq_getElem h]

theorem deref_end : deref text text.length = .ok 0 := by
  rw [deref, List.getElem?_eq_none le_rfl]
  exact if_pos rfl

/-- The scanning loops end, and read nothing behind the end. -/
theorem advance_stops (test : UInt8 → Bool) : ∀ k s, s ≤ text.length → text.length < s + k →
    ∃ e, advance text test k s = .ok e ∧ Stops text test s e := by
  intro k
  induction k with
  | zero =>
    intro s hs hk
    omega
  | succ k ih =>
    intro s hs hk
    rw [advance]
    by_cases hlt : s < text.length
    · rw [if_pos hlt, deref_of_lt hlt]
      cases htest : test text[s] with
      | true =>
        obtain ⟨e, he, hst⟩ := ih (s + 1) hlt (by omega)
        refine ⟨e, by simpa [bind, Except.bind, htest] using he, by have := hst.le; omega, hst.inside, ?_, hst.stop⟩
        intro i hi hie
        by_cases heq : i = s
        · subst heq
          exact ⟨text[i], List.getElem?_eq_getElem hlt, htest⟩
        · exact hst.pass i (by omega) hie
      | false =>
        refine ⟨s, by simp [bind, Except.bind, htest, pure, Except.pure], le_rfl, hs, ?_, ?_⟩
        · intro i hi hie
          omega
        · intro c hc
          rw [List.getElem?_eq_getElem hlt] at hc
          cases hc
          exact htest
    · rw [if_neg hlt]
      refine ⟨s, rfl, le_rfl, hs, ?_, ?_⟩
      · intro i hi hie
        omega
      · intro c hc
        rw [List.getElem?_eq_none (Nat.not_lt.mp hlt)] at hc
        cases hc

/-- White space up to the next token. -/
abbrev Skips (text : List UInt8) (s e : ℕ) : Prop := Stops text (strchr whitespace) s e

theorem skip_stops (hs : s ≤ text.length) : ∃ e, skip text s = .ok e ∧ Skips text s e :=
  advance_stops _ _ s hs (by omega)

theorem Stops.skip (h : Skips text s e) : Sh.skip text s = .ok e := by
  obtain ⟨e', hrun, h'⟩ := skip_stops (h.le.trans h.inside)
  rw [hrun, h.unique h']

end Scan

section Tokens

/-- `w` is a word of the text. -/
structure Word (text : List UInt8) (a : Span) (w : List UInt8) : Prop where
  stops : Stops text isWordByte a.1 a.2
  lt : a.1 < a.2
  bytes : w = (text.drop a.1).take (a.2 - a.1)

/-- The symbols that are tokens by themselves. -/
def symbolTok (c : UInt8) : Option Tok :=
  if c = 60 then some .lt
  else if c = 124 then some .bar
  else if c = 38 then some .amp
  else if c = 59 then some .semi
  else if c = 40 then some .lpar
  else if c = 41 then some .rpar
  else none

/-- There is a token from `q` to `eq`. -/
inductive TokenAt (text : List UInt8) (q : ℕ) : Tok → ℕ → Prop where
  | symbol {c : UInt8} {t : Tok} (hc : text[q]? = some c) (ht : symbolTok c = some t) : TokenAt text q t (q + 1)
  | gt (hc : text[q]? = some 62) (hn : text[q + 1]? ≠ some 62) : TokenAt text q .gt (q + 1)
  | append (hc : text[q]? = some 62) (hn : text[q + 1]? = some 62) : TokenAt text q .append (q + 2)
  | word {eq : ℕ} {w : List UInt8} (h : Word text (q, eq) w) : TokenAt text q (.word w) eq

/-- From `s` on, these are the tokens. -/
inductive Toks (text : List UInt8) : ℕ → List Tok → Prop where
  | nil {s : ℕ} (h : Skips text s text.length) : Toks text s []
  | cons {s q eq : ℕ} {t : Tok} {ts : List Tok} (h : Skips text s q) (ht : TokenAt text q t eq) (hts : Toks text eq ts) :
      Toks text s (t :: ts)

theorem TokenAt.bounds (h : TokenAt text q t eq) : q < eq ∧ eq ≤ text.length := by
  cases h with
  | symbol hc ht =>
    have := (List.getElem?_eq_some_iff.mp hc).1
    omega
  | gt hc hn =>
    have := (List.getElem?_eq_some_iff.mp hc).1
    omega
  | append hc hn =>
    have := (List.getElem?_eq_some_iff.mp hn).1
    omega
  | word h => exact ⟨h.lt, h.stops.inside⟩

theorem Toks.skip (h : Toks text s ts) (he : Skips text s e) : Toks text e ts := by
  cases h with
  | nil h =>
    rw [he.unique h]
    exact .nil h.again
  | cons h ht hts =>
    rw [he.unique h]
    exact .cons h.again ht hts

/-- Every token takes at least one byte. -/
theorem Toks.length_le (h : Toks text s ts) : s + ts.length ≤ text.length := by
  induction h with
  | nil h => exact h.le
  | cons h ht hts ih =>
    have := ht.bounds
    have := h.le
    rw [List.length_cons]
    omega

/-- The bytes of a line are white space, symbols or bytes of words. -/
theorem tokenAt_of_lt (hq : q < text.length) (hne : strchr whitespace text[q] = false) : ∃ t eq, TokenAt text q t eq := by
  have hc : text[q]? = some text[q] := List.getElem?_eq_getElem hq
  by_cases hsym : strchr symbols text[q] = true
  · by_cases hgt : text[q] = 62
    · rw [hgt] at hc
      by_cases hn : text[q + 1]? = some 62
      · exact ⟨_, _, .append hc hn⟩
      · exact ⟨_, _, .gt hc hn⟩
    · generalize text[q] = c at hc hsym hgt
      simp only [strchr, symbols, List.contains_cons, List.contains_nil, Bool.or_false, Bool.or_eq_true, beq_iff_eq] at hsym
      rcases hsym with rfl | rfl | rfl | rfl | rfl | rfl | rfl
      · exact ⟨_, _, .symbol hc rfl⟩
      · exact ⟨_, _, .symbol hc rfl⟩
      · exact absurd rfl hgt
      · exact ⟨_, _, .symbol hc rfl⟩
      · exact ⟨_, _, .symbol hc rfl⟩
      · exact ⟨_, _, .symbol hc rfl⟩
      · exact ⟨_, _, .symbol hc rfl⟩
  · obtain ⟨eq, -, hst⟩ := advance_stops isWordByte (text.length + 1) q hq.le (by omega)
    refine ⟨_, eq, .word ⟨hst, ?_, rfl⟩⟩
    rcases Nat.lt_or_ge q eq with hlt | hge
    · exact hlt
    · have := hst.stop text[q] (by rw [Nat.le_antisymm hge hst.le]; exact hc)
      simp only [isWordByte, hne, Bool.not_false, Bool.true_and, Bool.not_eq_false'] at this
      exact absurd this hsym

theorem exists_toks : ∀ n s, s ≤ text.length → text.length ≤ s + n → ∃ ts, Toks text s ts := by
  intro n
  induction n with
  | zero =>
    intro s hs hn
    obtain rfl : s = text.length := by omega
    exact ⟨[], .nil ⟨le_rfl, le_rfl, fun i hi hlt => absurd hlt (Nat.not_lt.mpr hi), fun c hc => by simp at hc⟩⟩
  | succ n ih =>
    intro s hs hn
    obtain ⟨q, -, hq⟩ := skip_stops hs
    by_cases hlt : q < text.length
    · obtain ⟨t, eq, ht⟩ := tokenAt_of_lt hlt (hq.stop _ (List.getElem?_eq_getElem hlt))
      have hb := ht.bounds
      have := hq.le
      obtain ⟨ts, hts⟩ := ih eq hb.2 (by omega)
      exact ⟨t :: ts, .cons hq ht hts⟩
    · obtain rfl : q = text.length := Nat.le_antisymm hq.inside (Nat.not_lt.mp hlt)
      exact ⟨[], .nil hq⟩

end Tokens

/-- What `gettoken` reports. -/
def Tok.code : Tok → UInt8
  | .word _ => 97
  | .lt => 60
  | .gt => 62
  | .append => 43
  | .bar => 124
  | .amp => 38
  | .semi => 59
  | .lpar => 40
  | .rpar => 41

/-- The first byte of a token that is not a word. -/
def Tok.byte : Tok → Option UInt8
  | .word _ => none
  | .append => some 62
  | t => some t.code

/-- The first token starts with one of these symbols. -/
def headIn (toks : List UInt8) : List Tok → Bool
  | [] => false
  | t :: _ => t.byte.any fun c => toks.contains c

section Steps

variable {Q : UInt8 × ℕ × ℕ → ℕ → Prop} {P : Bool → ℕ → Prop} {E : Stop → Prop}

theorem wp_lift {α : Type} {x : Except Stop α} {a : α} {R : α → ℕ → Prop} (h : x = .ok a) :
    wp (liftM x : ParseM α) R E s ↔ R a s := by
  subst h
  exact Iff.rfl

theorem deref_of_get {c : UInt8} (h : text[s]? = some c) : deref text s = .ok c := by
  rw [deref, h]

theorem symbolTok_spec {c : UInt8} (h : symbolTok c = some t) : c ≠ 0 ∧ strchr [124, 40, 41, 59, 38, 60] c = true ∧
    t.code = c ∧ t.byte = some c ∧ ∀ w, t ≠ .word w := by
  unfold symbolTok at h
  split_ifs at h with h1 h2 h3 h4 h5 h6
  all_goals
    cases h
    subst c
    exact ⟨by decide, by decide, rfl, rfl, nofun⟩

/-- A byte of a word is no symbol. -/
theorem isWordByte_spec {c : UInt8} (h : isWordByte c = true) : strchr symbols c = false := by
  simp only [isWordByte, Bool.and_eq_true, Bool.not_eq_true'] at h
  exact h.2

theorem isWordByte_ne {c : UInt8} (h : isWordByte c = true) : strchr [124, 40, 41, 59, 38, 60] c = false ∧ c ≠ 62 := by
  have hsym := isWordByte_spec h
  simp only [strchr, symbols, List.contains_cons, List.contains_nil, Bool.or_false, Bool.or_eq_false_iff, beq_eq_false_iff_ne]
    at hsym ⊢
  tauto

/-- Behind a symbol there is a byte or the end. -/
theorem deref_next {c x : UInt8} (hc : text[q]? = some c) (hn : text[q + 1]? ≠ some x) (hx : x ≠ 0) :
    ∃ d, deref text (q + 1) = .ok d ∧ d ≠ x := by
  have hlt := (List.getElem?_eq_some_iff.mp hc).1
  by_cases hend : q + 1 = text.length
  · exact ⟨0, hend ▸ deref_end, hx.symm⟩
  · have hget := List.getElem?_eq_getElem (show q + 1 < text.length by omega)
    exact ⟨_, deref_of_get hget, fun h => hn (h ▸ hget)⟩

theorem gettoken_nil (h : Toks text s []) (hQ : ∀ q eq s', Toks text s' [] → Q (0, q, eq) s') : wp (gettoken text) Q E s := by
  cases h with
  | nil h =>
    simp only [gettoken, wp_bind, wp_get, wp_lift h.skip, wp_lift deref_end, if_true, wp_pure, wp_lift h.again.skip, wp_set]
    exact hQ _ _ _ (.nil h.again)

/-- `gettoken` at a word. -/
theorem gettoken_word (h0 : 0 ∉ text) {w : List UInt8} (h : Skips text s q) (hw : Word text (q, eq) w) :
    ∃ s', Skips text eq s' ∧ gettoken text s = .ok ((97, q, eq), s') := by
  obtain ⟨s', hs', hskip⟩ := skip_stops hw.stops.inside
  obtain ⟨c, hc, hbyte⟩ := hw.stops.pass q le_rfl hw.lt
  have hne : c ≠ 0 := fun h => h0 (h ▸ List.mem_of_getElem? hc)
  obtain ⟨hin, hgt⟩ := isWordByte_ne hbyte
  obtain ⟨e, he, hst⟩ := advance_stops isWordByte (text.length + 1) q (hw.lt.le.trans hw.stops.inside) (by omega)
  obtain rfl : e = eq := hst.unique hw.stops
  have hrun : wp (gettoken text) (fun r t => r = (97, q, e) ∧ t = s') (fun _ => False) s := by
    simp only [gettoken, wp_bind, wp_get, wp_lift h.skip, wp_lift (deref_of_get hc), if_neg hne, hin, Bool.false_eq_true,
      if_false, if_neg hgt, wp_lift he, wp_pure, wp_lift hs', wp_set, and_self]
  obtain ⟨r, t, ht, rfl, rfl⟩ := wp_returns hrun
  exact ⟨t, hskip, ht⟩

theorem gettoken_cons (h0 : 0 ∉ text) (h : Toks text s (t :: ts))
    (hQ : ∀ q eq s', Toks text s' ts → TokenAt text q t eq → Q (t.code, q, eq) s') : wp (gettoken text) Q E s := by
  cases h with
  | @cons _ q eq _ _ h ht hts =>
    obtain ⟨s', hs', hskip⟩ := skip_stops ht.bounds.2
    have hdone := hQ q eq s' (hts.skip hskip) ht
    cases ht with
    | symbol hc ht =>
      obtain ⟨hne, hin, hcode, -⟩ := symbolTok_spec ht
      simp only [gettoken, wp_bind, wp_get, wp_lift h.skip, wp_lift (deref_of_get hc), if_neg hne, if_pos hin, wp_pure,
        wp_lift hs', wp_set]
      exact hcode ▸ hdone
    | gt hc hn =>
      obtain ⟨c, hd, hne⟩ := deref_next hc hn (by decide)
      have hin : ¬ strchr [124, 40, 41, 59, 38, 60] 62 = true := by decide
      have hz : ¬ (62 : UInt8) = 0 := by decide
      simp only [gettoken, wp_bind, wp_get, wp_lift h.skip, wp_lift (deref_of_get hc), if_neg hz, if_neg hin, if_true,
        wp_lift hd, if_neg hne, wp_pure, wp_lift hs', wp_set]
      exact hdone
    | append hc hn =>
      have hin : ¬ strchr [124, 40, 41, 59, 38, 60] 62 = true := by decide
      have hz : ¬ (62 : UInt8) = 0 := by decide
      simp only [gettoken, wp_bind, wp_get, wp_lift h.skip, wp_lift (deref_of_get hc), if_neg hz, if_neg hin, if_true,
        wp_lift (deref_of_get hn), wp_pure, wp_lift hs', wp_set]
      exact hdone
    | word hw =>
      obtain ⟨s1, hs1, hrun⟩ := gettoken_word h0 h hw
      rw [wp, hrun]
      exact hQ q eq s1 (hts.skip hs1) (.word hw)

theorem peek_spec (h0 : 0 ∉ text) {toks : List UInt8} (hsym : toks.all symbols.contains) (h : Toks text s ts)
    (hP : ∀ s', Toks text s' ts → P (headIn toks ts) s') : wp (peek text toks) P E s := by
  cases h with
  | nil h =>
    simp only [peek, wp_bind, wp_get, wp_lift h.skip, wp_set, wp_lift deref_end, wp_pure]
    exact hP _ (.nil h.again)
  | @cons _ q eq t ts h ht hts =>
    simp only [peek, wp_bind, wp_get, wp_lift h.skip, wp_set]
    have hdone := hP q (.cons h.again ht hts)
    have hfirst : ∃ c, text[q]? = some c ∧ strchr toks c = headIn toks (t :: ts) := by
      cases ht with
      | symbol hc ht =>
        obtain ⟨-, -, -, hbyte, -⟩ := symbolTok_spec ht
        exact ⟨_, hc, by rw [headIn, hbyte]; rfl⟩
      | gt hc hn => exact ⟨_, hc, rfl⟩
      | append hc hn => exact ⟨_, hc, rfl⟩
      | word hw =>
        obtain ⟨c, hc, hbyte⟩ := hw.stops.pass q le_rfl hw.lt
        refine ⟨c, hc, Bool.eq_false_iff.mpr fun hin => ?_⟩
        have hno : strchr symbols c = false := isWordByte_spec hbyte
        rw [strchr, List.all_eq_true.mp hsym c (List.contains_iff_mem.mp hin)] at hno
        cases hno
    obtain ⟨c, hc, hhead⟩ := hfirst
    have hne : c ≠ 0 := fun h => h0 (h ▸ List.mem_of_getElem? hc)
    simp only [wp_lift (deref_of_get hc), wp_pure, ne_eq, hne, not_false_eq_true, decide_true, Bool.true_and, hhead]
    exact hdone

theorem TokenAt.tokOf (h : TokenAt text q t eq) : Sh.tokOf t.code ((text.drop q).take (eq - q)) = t := by
  cases h with
  | symbol hc ht =>
    obtain ⟨-, -, -, -, hno⟩ := symbolTok_spec ht
    cases t with
    | word w => exact absurd rfl (hno w)
    | lt | gt | append | bar | amp | semi | lpar | rpar => rfl
  | gt hc hn => rfl
  | append hc hn => rfl
  | word hw => exact congrArg Tok.word hw.bytes.symm

theorem Tok.code_ne_zero (t : Tok) : t.code ≠ 0 := by
  cases t with
  | word w => exact (by decide : (97 : UInt8) ≠ 0)
  | lt | gt | append | bar | amp | semi | lpar | rpar => decide

theorem tokensFrom_spec (h0 : 0 ∉ text) : ∀ k s ts, Toks text s ts → ts.length < k →
    wp (tokensFrom text k) (fun res _ => res = ts) (fun _ => False) s := by
  intro k
  induction k with
  | zero =>
    intro s ts _ hk
    exact absurd hk (Nat.not_lt_zero _)
  | succ k ih =>
    intro s ts h hk
    rw [tokensFrom, wp_bind]
    cases ts with
    | nil =>
      apply gettoken_nil h
      intro q eq s' _
      rfl
    | cons t ts =>
      apply gettoken_cons h0 h
      intro q eq s' hts ht
      dsimp only
      rw [if_neg t.code_ne_zero, wp_bind]
      apply wp_mono (ih s' ts hts (Nat.lt_of_succ_lt_succ hk)) _ fun _ => id
      intro res s2 hres
      rw [wp_pure, hres, ht.tokOf]

end Steps

end Xv6.Sh
