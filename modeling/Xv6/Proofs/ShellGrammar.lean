import Xv6.Sanity.ShParser

/-! The shell's parser accepts exactly its grammar. -/

namespace Xv6.Sh

open Wp

variable {text buf : List UInt8} {c : Cmd Span} {d : Cmd (List UInt8)}

section Terminate

/-- The words of a tree, in the order in which `nulterminate` gets to them. -/
def Cmd.words {α : Type} : Cmd α → List α
  | .exec argv => argv
  | .redir cmd file _ _ => cmd.words ++ [file]
  | .pipe left right => left.words ++ right.words
  | .list left right => left.words ++ right.words
  | .back cmd => cmd.words

theorem nulterminate_eq (c : Cmd Span) : ∀ buf, nulterminate c buf = c.words.foldlM (fun buf a => terminate buf a.2) buf := by
  induction c with
  | exec argv =>
    intro buf
    rfl
  | redir c file mode fd ih =>
    intro buf
    rw [nulterminate, Cmd.words, List.foldlM_append, ih]
    simp only [List.foldlM_cons, List.foldlM_nil, bind_pure]
  | pipe c c' ih ih' =>
    intro buf
    rw [nulterminate, Cmd.words, List.foldlM_append, ih]
    exact congrArg _ (funext ih')
  | list c c' ih ih' =>
    intro buf
    rw [nulterminate, Cmd.words, List.foldlM_append, ih]
    exact congrArg _ (funext ih')
  | back c ih =>
    intro buf
    exact ih buf

/-- NULs at the ends of the words, and nothing else. -/
theorem foldlM_terminate : ∀ (as : List Span) (buf : List UInt8), (∀ a ∈ as, a.2 < buf.length) →
    ∃ buf', as.foldlM (fun buf a => terminate buf a.2) buf = .ok buf' ∧ buf'.length = buf.length ∧
      ∀ i < buf.length, buf'[i]? = if ∃ a ∈ as, a.2 = i then some 0 else buf[i]? := by
  intro as
  induction as with
  | nil =>
    intro buf _
    exact ⟨buf, rfl, rfl, fun i _ => by simp⟩
  | cons a as ih =>
    intro buf hin
    have ha : a.2 < buf.length := hin a List.mem_cons_self
    obtain ⟨buf', hrun, hlen, hget⟩ := ih (buf.set a.2 0) fun b hb => by
      rw [List.length_set]
      exact hin b (List.mem_cons_of_mem a hb)
    rw [List.length_set] at hlen hget
    refine ⟨buf', ?_, hlen, fun i hi => ?_⟩
    · rw [List.foldlM_cons, terminate, if_pos ha]
      exact hrun
    · rw [hget i hi, List.getElem?_set, if_pos ha]
      by_cases hmem : ∃ b ∈ as, b.2 = i
      · rw [if_pos hmem, if_pos (by obtain ⟨b, hb, he⟩ := hmem; exact ⟨b, List.mem_cons_of_mem a hb, he⟩)]
      · rw [if_neg hmem]
        by_cases hai : a.2 = i
        · rw [if_pos hai, if_pos ⟨a, List.mem_cons_self, hai⟩]
        · rw [if_neg hai, if_neg]
          rintro ⟨b, hb, he⟩
          rcases List.mem_cons.mp hb with rfl | hb
          · exact hai he
          · exact hmem ⟨b, hb, he⟩

theorem Shows.words (h : Shows text c d) : ∀ a ∈ c.words, ∃ w, Word text a w := by
  induction h with
  | exec h =>
    intro a ha
    rw [Cmd.words] at ha
    induction h with
    | nil => cases ha
    | cons hw h ih =>
      rcases List.mem_cons.mp ha with rfl | ha
      · exact ⟨_, hw⟩
      · exact ih ha
  | redir h hw ih =>
    intro a ha
    rcases List.mem_append.mp ha with ha | ha
    · exact ih a ha
    · rw [List.mem_singleton.mp ha]
      exact ⟨_, hw⟩
  | pipe h h' ih ih' =>
    intro a ha
    rcases List.mem_append.mp ha with ha | ha
    · exact ih a ha
    · exact ih' a ha
  | list h h' ih ih' =>
    intro a ha
    rcases List.mem_append.mp ha with ha | ha
    · exact ih a ha
    · exact ih' a ha
  | back h ih => exact ih

/-- A word ends where no byte of a word is, so that no other word loses a byte. -/
theorem cstring_word (h0 : 0 ∉ text) {as : List Span} {a : Span} {w : List UInt8} (has : ∀ b ∈ as, ∃ w, Word text b w) (ha : a ∈ as)
    (hw : Word text a w) (hbuf : ∀ i < text.length + 1, buf[i]? = if ∃ b ∈ as, b.2 = i then some 0 else (text ++ [0])[i]?) :
    cstring buf a.1 = w := by
  have hend : buf[a.2]? = some 0 := by
    rw [hbuf a.2 (Nat.lt_succ_of_le hw.stops.inside), if_pos ⟨a, ha, rfl⟩]
  have hsame : ∀ i, a.1 ≤ i → i < a.2 → buf[i]? = text[i]? := by
    intro i hlo hhi
    obtain ⟨x, hx, hbyte⟩ := hw.stops.pass i hlo hhi
    have hlt := (List.getElem?_eq_some_iff.mp hx).1
    rw [hbuf i (by omega), if_neg, List.getElem?_append_left hlt]
    rintro ⟨b, hb, rfl⟩
    obtain ⟨w', hw'⟩ := has b hb
    rw [hw'.stops.stop x hx] at hbyte
    cases hbyte
  have hword : (buf.drop a.1).take (a.2 - a.1) = w := by
    rw [hw.bytes]
    refine List.ext_getElem? fun i => ?_
    rw [List.getElem?_take, List.getElem?_take]
    split_ifs with hi
    · rw [List.getElem?_drop, List.getElem?_drop]
      exact hsame _ (Nat.le_add_right _ _) (by omega)
    · rfl
  have hrest : (buf.drop a.1).drop (a.2 - a.1) = 0 :: buf.drop (a.2 + 1) := by
    obtain ⟨hlt, hget⟩ := List.getElem?_eq_some_iff.mp hend
    rw [List.drop_drop, Nat.add_sub_cancel' hw.lt.le, List.drop_eq_getElem_cons hlt, hget]
  have hne : ∀ x ∈ w, decide (x ≠ 0) = true := by
    intro x hx
    rw [hw.bytes] at hx
    exact decide_eq_true fun h => h0 (h ▸ List.mem_of_mem_drop (List.mem_of_mem_take hx))
  rw [cstring, ← List.take_append_drop (a.2 - a.1) (buf.drop a.1), hword, hrest, List.takeWhile_append_of_pos hne,
    List.takeWhile_cons_of_neg (by decide), List.append_nil]

theorem Shows.inBuffer (h : Shows text c d) (hbuf : ∀ a ∈ c.words, ∀ w, Word text a w → cstring buf a.1 = w) :
    c.inBuffer buf = d := by
  induction h with
  | @exec argv ws h =>
    refine congrArg Cmd.exec ?_
    induction h with
    | nil => rfl
    | cons hw h ih =>
      rw [List.map_cons, hbuf _ List.mem_cons_self _ hw, ih fun a ha => hbuf a (List.mem_cons_of_mem _ ha)]
  | @redir c d a w mode fd h hw ih =>
    have hc := ih fun b hb => hbuf b (List.mem_append_left _ hb)
    rw [Cmd.inBuffer, Cmd.map, ← Cmd.inBuffer, hc, hbuf a (List.mem_append_right _ List.mem_cons_self) w hw]
  | @pipe c c' d d' h h' ih ih' =>
    have hc := ih fun b hb => hbuf b (List.mem_append_left _ hb)
    have hc' := ih' fun b hb => hbuf b (List.mem_append_right _ hb)
    rw [Cmd.inBuffer, Cmd.map, ← Cmd.inBuffer, ← Cmd.inBuffer, hc, hc']
  | @list c c' d d' h h' ih ih' =>
    have hc := ih fun b hb => hbuf b (List.mem_append_left _ hb)
    have hc' := ih' fun b hb => hbuf b (List.mem_append_right _ hb)
    rw [Cmd.inBuffer, Cmd.map, ← Cmd.inBuffer, ← Cmd.inBuffer, hc, hc']
  | back h ih => exact congrArg Cmd.back (ih hbuf)

theorem nulterminate_words (h0 : 0 ∉ text) (h : ∀ a ∈ c.words, ∃ w, Word text a w) :
    ∃ buf, nulterminate c (text ++ [0]) = .ok buf ∧ ∀ a ∈ c.words, ∀ w, Word text a w → cstring buf a.1 = w := by
  have hlen : (text ++ [(0 : UInt8)]).length = text.length + 1 := by rw [List.length_append, List.length_singleton]
  obtain ⟨buf, hrun, -, hget⟩ := foldlM_terminate c.words (text ++ [0]) fun a ha => by
    obtain ⟨w, hw⟩ := h a ha
    rw [hlen]
    exact Nat.lt_succ_of_le hw.stops.inside
  rw [hlen] at hget
  exact ⟨buf, (nulterminate_eq c _).trans hrun, fun a ha w hw => cstring_word h0 h ha hw hget⟩

/-- The strings of the tree are its words. -/
theorem nulterminate_spec (h0 : 0 ∉ text) (h : Shows text c d) :
    ∃ buf, nulterminate c (text ++ [0]) = .ok buf ∧ c.inBuffer buf = d := by
  obtain ⟨buf, hrun, hwords⟩ := nulterminate_words h0 h.words
  exact ⟨buf, hrun, h.inBuffer hwords⟩

end Terminate

theorem peek_nil {s : ℕ} (h : Toks text s []) : ∃ b, peek text [] s = .ok (b, text.length) := by
  cases h with
  | nil h =>
    have hrun : wp (peek text []) (fun b s' => s' = text.length) (fun _ => False) s := by
      simp only [peek, wp_bind, wp_get, wp_lift h.skip, wp_set, wp_lift deref_end, wp_pure]
    obtain ⟨b, s', hb, rfl⟩ := wp_returns hrun
    exact ⟨b, hb⟩

theorem parsecmd_sound (h0 : 0 ∉ text) {ts : List Tok} (h : Toks text 0 ts) :
    (∀ c buf, parsecmd text = .ok (c, buf) → Derives .line ts (c.inBuffer buf)) ∧ ∀ e, parsecmd text = .error e → Panics e := by
  have hle := h.length_le
  have hline := (parse_sound h0 (4 * text.length + 4)).1 0 ts h (by omega)
  cases hrun : parseline text (4 * text.length + 4) 0 with
  | error e =>
    simp only [parsecmd, hrun, bind, Except.bind]
    refine ⟨nofun, ?_⟩
    rintro _ ⟨⟩
    exact wp_error hline hrun
  | ok x =>
    obtain ⟨c, s⟩ := x
    obtain ⟨us, rest, d, rfl, hd, hs, hshow⟩ := wp_ok hline hrun
    have hpeek : wp (peek text []) (fun _ s' => Toks text s' rest) (fun _ => False) s := by
      apply peek_spec h0 (by simp) hs
      intro s' hs'
      exact hs'
    obtain ⟨b, s1, hpeek, hs1⟩ := wp_returns hpeek
    simp only [parsecmd, hrun, bind, Except.bind, hpeek]
    by_cases hend : s1 = text.length
    · -- no token is left
      have hrest : rest = [] := by
        have := hs1.length_le
        exact List.length_eq_zero_iff.mp (by omega)
      subst hrest
      obtain ⟨buf, hnul, hbuf⟩ := nulterminate_spec h0 hshow
      rw [if_neg (not_not.mpr hend), hnul]
      refine ⟨?_, nofun⟩
      rintro _ _ ⟨⟩
      rw [List.append_nil, hbuf]
      exact hd
    · rw [if_pos hend]
      refine ⟨nofun, ?_⟩
      rintro _ ⟨⟩
      exact ⟨_, rfl⟩

theorem parsecmd_complete (h0 : 0 ∉ text) {ts : List Tok} (h : Toks text 0 ts) (hd : Derives .line ts d) :
    ∃ c buf, parsecmd text = .ok (c, buf) ∧ c.inBuffer buf = d := by
  have hle := h.length_le
  have hts : Toks text 0 (ts ++ []) := by rwa [List.append_nil]
  have hline : wp (parseline text (4 * text.length + 4)) (fun c s' => Toks text s' [] ∧ Shows text c d) (fun _ => False) 0 :=
    parse_complete h0 hd (4 * text.length + 4) 0 [] hts (.inl rfl) (by rw [List.append_nil, depth]; omega)
  obtain ⟨c, s, hrun, hs, hshow⟩ := wp_returns hline
  obtain ⟨b, hpeek⟩ := peek_nil hs
  obtain ⟨buf, hnul, hbuf⟩ := nulterminate_spec h0 hshow
  refine ⟨c, buf, ?_, hbuf⟩
  simp only [parsecmd, hrun, bind, Except.bind, hpeek]
  rw [if_neg (not_not.mpr rfl), hnul]
  rfl

/-- **The shell's parser accepts exactly its grammar.** For every string, `parsecmd` ends and reads no byte behind the NUL; it
returns a tree, and not a panic, exactly if the tokens of the string derive from the grammar, and the tree, with its words as
the strings that they are in the buffer, is the one of the derivation. -/
theorem shell_parser_accepts_grammar (h0 : 0 ∉ text) :
    parsecmd text ≠ .error .outside ∧ parsecmd text ≠ .error .hang ∧ ∃ toks, tokenise text = .ok toks ∧
      ∀ tree, (∃ c buf, parsecmd text = .ok (c, buf) ∧ c.inBuffer buf = tree) ↔ Derives .line toks tree := by
  obtain ⟨ts, h⟩ := exists_toks text.length 0 (Nat.zero_le _) (Nat.zero_add _).ge
  obtain ⟨hsound, hpanic⟩ := parsecmd_sound h0 h
  have hle := h.length_le
  obtain ⟨res, s, htoks, hres⟩ := wp_returns (tokensFrom_spec h0 (text.length + 1) 0 ts h (by omega))
  rw [hres] at htoks
  refine ⟨?_, ?_, ts, ?_, ?_⟩
  · intro he
    obtain ⟨msg, hmsg⟩ := hpanic _ he
    cases hmsg
  · intro he
    obtain ⟨msg, hmsg⟩ := hpanic _ he
    cases hmsg
  · simp only [tokenise, StateT.run'_eq, StateT.run, htoks]
    rfl
  · intro tree
    constructor
    · rintro ⟨c, buf, hrun, rfl⟩
      exact hsound c buf hrun
    · intro hd
      exact parsecmd_complete h0 h hd

/-- `a > b & ; c` -/
def sampleLine : List UInt8 := [97, 32, 62, 32, 98, 32, 38, 32, 59, 32, 99]

theorem shell_parser_accepts_sampleLine : ∃ c buf, parsecmd sampleLine = .ok (c, buf) ∧
    c.inBuffer buf = .list (.back (.redir (.exec [[97]]) [98] 0x601 1)) (.exec [[99]]) := by
  obtain ⟨-, -, toks, htoks, hiff⟩ := @shell_parser_accepts_grammar sampleLine (by decide)
  have hsample : tokenise sampleLine = .ok [.word [97], .gt, .word [98], .amp, .semi, .word [99]] := by decide +kernel
  rw [hsample] at htoks
  cases htoks
  apply (hiff _).mpr
  have hleft : Derives .exec [.word [97], .gt, .word [98]] (.redir (.exec [[97]]) [98] 0x601 1) :=
    .words .nil (.cons (.cons rfl .nil) .nil) (by decide)
  have hright : Derives .exec [.word [99]] (.exec [[99]]) := .words .nil (.cons .nil .nil) (by decide)
  exact .list 1 (.single hleft) (.line 0 (.single hright))

end Xv6.Sh
