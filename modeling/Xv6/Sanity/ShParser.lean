import Xv6.Sanity.ShTokens

/-! The parsers against the grammar. Each has two lemmas: what it returns is derived, and what is derived, up to a token
that cannot continue it, is returned. -/

namespace Xv6.Sh

open Wp

variable {text : List UInt8} {s k : ℕ} {t : Tok} {ts us rest : List Tok} {c : Cmd Span} {d : Cmd (List UInt8)}

/-- The parser gives up with a message. -/
def Panics (e : Stop) : Prop := ∃ msg, e = .panic msg

theorem exists_succ {n : ℕ} (h : n < k) : ∃ m, k = m + 1 := Nat.exists_eq_succ_of_ne_zero (Nat.ne_zero_of_lt h)

section Trees

/-- The tree of spans shows the tree of words. -/
inductive Shows (text : List UInt8) : Cmd Span → Cmd (List UInt8) → Prop where
  | exec {argv : List Span} {ws : List (List UInt8)} (h : List.Forall₂ (Word text) argv ws) : Shows text (.exec argv) (.exec ws)
  | redir {c : Cmd Span} {d : Cmd (List UInt8)} {a : Span} {w : List UInt8} {mode fd : ℕ} (h : Shows text c d)
      (hw : Word text a w) : Shows text (.redir c a mode fd) (.redir d w mode fd)
  | pipe {c c' : Cmd Span} {d d' : Cmd (List UInt8)} (h : Shows text c d) (h' : Shows text c' d') :
      Shows text (.pipe c c') (.pipe d d')
  | list {c c' : Cmd Span} {d d' : Cmd (List UInt8)} (h : Shows text c d) (h' : Shows text c' d') :
      Shows text (.list c c') (.list d d')
  | back {c : Cmd Span} {d : Cmd (List UInt8)} (h : Shows text c d) : Shows text (.back c) (.back d)

theorem Shows.push (h : Shows text c d) {a : Span} {w : List UInt8} (hw : Word text a w) : Shows text (c.push a) (d.push w) := by
  induction h with
  | exec h => exact .exec (List.rel_append h (.cons hw .nil))
  | redir h hw' ih => exact .redir ih hw'
  | pipe h h' => exact .pipe h h'
  | list h h' => exact .list h h'
  | back h => exact .back h

/-- The arguments are below the redirections. -/
theorem push_wrap (w : List UInt8) : ∀ (rs : List Redirection) (d : Cmd (List UInt8)),
    (rs.foldl Cmd.wrap d).push w = rs.foldl Cmd.wrap (d.push w) := by
  intro rs
  induction rs with
  | nil =>
    intro d
    rfl
  | cons r rs ih =>
    intro d
    exact ih (d.wrap r)

end Trees

section Heads

/-- What follows is nothing, or starts with one of these symbols. -/
def Follow (toks : List UInt8) (ts : List Tok) : Prop := ts = [] ∨ headIn toks ts = true

theorem Follow.headIn {toks toks' : List UInt8} (h : Follow toks ts) (hd : toks.all (!toks'.contains ·)) : headIn toks' ts = false := by
  cases ts with
  | nil => rfl
  | cons t ts =>
    rcases h with h | h
    · cases h
    · rw [Sh.headIn] at h ⊢
      cases hb : t.byte with
      | none => rfl
      | some b =>
        rw [hb] at h
        simpa using List.all_eq_true.mp hd b (List.contains_iff_mem.mp h)

theorem Follow.mono {toks toks' : List UInt8} (h : Follow toks ts) (hsub : toks.all toks'.contains) : Follow toks' ts := by
  cases ts with
  | nil => exact .inl rfl
  | cons t ts =>
    rcases h with h | h
    · cases h
    · rw [Sh.headIn] at h
      refine .inr ?_
      rw [Sh.headIn]
      cases hb : t.byte with
      | none =>
        rw [hb] at h
        cases h
      | some b =>
        rw [hb] at h
        exact List.all_eq_true.mp hsub b (List.contains_iff_mem.mp h)

/-- A redirection starts with `<` or `>`, and nothing else does. -/
theorem headIn_redirection : headIn [60, 62] (t :: ts) = t.redirection.isSome := by
  cases t with
  | word w => rfl
  | lt | gt | append | bar | amp | semi | lpar | rpar => rfl

/-- A symbol that is one token only. -/
theorem headIn_code (u : Tok) (hu : u ∈ [Tok.bar, .amp, .semi, .lpar, .rpar]) (h : headIn [u.code] ts = true) :
    ∃ us, ts = u :: us := by
  cases ts with
  | nil => cases h
  | cons t us =>
    refine ⟨us, congrArg (· :: us) ?_⟩
    simp only [List.mem_cons, List.not_mem_nil, or_false] at hu
    rcases hu with rfl | rfl | rfl | rfl | rfl
    all_goals
      cases t with
      | word | lt | gt | append | bar | amp | semi | lpar | rpar => first | rfl | cases h

end Heads

section Redirections

theorem Tok.code_eq_word (h : t.code = 97) : ∃ w, t = .word w := by
  cases t with
  | word w => exact ⟨w, rfl⟩
  | lt | gt | append | bar | amp | semi | lpar | rpar => exact absurd h (by decide)

theorem TokenAt.toWord {q eq : ℕ} {w : List UInt8} (h : TokenAt text q (.word w) eq) : Word text (q, eq) w := by
  cases h with
  | symbol hc ht => exact absurd rfl ((symbolTok_spec ht).2.2.2.2 w)
  | word hw => exact hw

/-- The `switch` of `parseredirs`. -/
theorem redirection_switch {α : Type} {mode fd : ℕ} (ht : t.redirection = some (mode, fd)) (f : ℕ → ℕ → α) (other : α) :
    (if t.code = 60 then f O_RDONLY 0 else if t.code = 62 then f (O_WRONLY ||| O_CREATE ||| O_TRUNC) 1
      else if t.code = 43 then f (O_WRONLY ||| O_CREATE) 1 else other) = f mode fd := by
  cases t with
  | lt | gt | append =>
    cases ht
    rfl
  | word | bar | amp | semi | lpar | rpar => cases ht

/-- One pass over a redirection and its file. -/
theorem parseredirsFrom_cons {w : List UInt8} {mode fd : ℕ} {Q : Cmd Span → ℕ → Prop} {E : Stop → Prop} (h0 : 0 ∉ text)
    (h : Toks text s (t :: .word w :: ts)) (ht : t.redirection = some (mode, fd))
    (hQ : ∀ s' a, Toks text s' ts → Word text a w → wp (parseredirsFrom text k (.redir c a mode fd)) Q E s') :
    wp (parseredirsFrom text (k + 1) c) Q E s := by
  rw [parseredirsFrom, wp_bind]
  apply peek_spec h0 rfl h
  intro s1 h1
  rw [headIn_redirection, ht, Option.isSome_some, if_pos rfl, wp_bind]
  apply gettoken_cons h0 h1
  intro _ _ s2 h2 _
  rw [wp_bind]
  apply gettoken_cons h0 h2
  intro q eq s3 h3 hw
  have hswitch := redirection_switch ht (fun mode fd => parseredirsFrom text k (.redir c (q, eq) mode fd))
    (parseredirsFrom text k c)
  dsimp only [Tok.code] at hswitch ⊢
  rw [if_neg (by decide), hswitch]
  exact hQ s3 (q, eq) h3 hw.toWord

/-- Where no redirection starts. -/
theorem parseredirsFrom_done {Q : Cmd Span → ℕ → Prop} {E : Stop → Prop} (h0 : 0 ∉ text) (h : Toks text s ts)
    (hno : headIn [60, 62] ts = false) (hQ : ∀ s', Toks text s' ts → Q c s') : wp (parseredirsFrom text (k + 1) c) Q E s := by
  rw [parseredirsFrom, wp_bind]
  apply peek_spec h0 rfl h
  intro s1 h1
  rw [hno, if_neg Bool.false_ne_true]
  exact hQ s1 h1

theorem parseredirsFrom_sound (h0 : 0 ∉ text) : ∀ k s ts c d, Toks text s ts → ts.length < k → Shows text c d →
    wp (parseredirsFrom text k c) (fun c' s' => ∃ us rest rs, ts = us ++ rest ∧ Redirs us rs ∧ Toks text s' rest ∧
      Shows text c' (rs.foldl Cmd.wrap d)) Panics s := by
  intro k
  induction k with
  | zero =>
    intro s ts c d _ hk
    exact absurd hk (Nat.not_lt_zero _)
  | succ k ih =>
    intro s ts c d h hk hshow
    have hdone : headIn [60, 62] ts = false → wp (parseredirsFrom text (k + 1) c) (fun c' s' => ∃ us rest rs, ts = us ++ rest ∧
        Redirs us rs ∧ Toks text s' rest ∧ Shows text c' (rs.foldl Cmd.wrap d)) Panics s := by
      intro hno
      apply parseredirsFrom_done h0 h hno
      intro s' h'
      exact ⟨[], ts, [], rfl, .nil, h', hshow⟩
    cases ts with
    | nil => exact hdone rfl
    | cons t ts =>
      cases ht : t.redirection with
      | none => exact hdone (by rw [headIn_redirection, ht]; rfl)
      | some x =>
        obtain ⟨mode, fd⟩ := x
        by_cases hfile : ∃ w us, ts = .word w :: us
        · obtain ⟨w, ts, rfl⟩ := hfile
          apply parseredirsFrom_cons h0 h ht
          intro s' a h' hw
          rw [List.length_cons, List.length_cons] at hk
          apply wp_mono (ih s' ts _ (.redir d w mode fd) h' (by omega) (.redir hshow hw)) _ fun _ => id
          rintro c' s2 ⟨us, rest, rs, rfl, hrs, h2, hshow'⟩
          exact ⟨t :: .word w :: us, rest, ⟨w, mode, fd⟩ :: rs, rfl, .cons ht hrs, h2, hshow'⟩
        · -- no file
          rw [parseredirsFrom, wp_bind]
          apply peek_spec h0 rfl h
          intro s1 h1
          rw [headIn_redirection, ht, Option.isSome_some, if_pos rfl, wp_bind]
          apply gettoken_cons h0 h1
          intro _ _ s2 h2 _
          rw [wp_bind]
          cases ts with
          | nil =>
            apply gettoken_nil h2
            intro q eq s3 _
            exact ⟨_, rfl⟩
          | cons t' ts =>
            apply gettoken_cons h0 h2
            intro q eq s3 _ _
            have hne : t'.code ≠ 97 := by
              intro hcode
              obtain ⟨w, rfl⟩ := Tok.code_eq_word hcode
              exact hfile ⟨w, ts, rfl⟩
            dsimp only
            rw [if_pos hne]
            exact ⟨_, rfl⟩

theorem parseredirsFrom_complete (h0 : 0 ∉ text) {rs : List Redirection} (hrs : Redirs us rs) : ∀ k s c d,
    Toks text s (us ++ rest) → headIn [60, 62] rest = false → us.length < k → Shows text c d →
    wp (parseredirsFrom text k c) (fun c' s' => Toks text s' rest ∧ Shows text c' (rs.foldl Cmd.wrap d)) (fun _ => False) s := by
  induction hrs with
  | nil =>
    intro k s c d h hno hk hshow
    obtain ⟨k, rfl⟩ := exists_succ hk
    apply parseredirsFrom_done h0 h hno
    intro s' h'
    exact ⟨h', hshow⟩
  | @cons t w mode fd us rs ht hrs ih =>
    intro k s c d h hno hk hshow
    rw [List.length_cons, List.length_cons] at hk
    obtain ⟨k, rfl⟩ := exists_succ hk
    apply parseredirsFrom_cons h0 h ht
    intro s' a h' hw
    exact ih k s' _ (.redir d w mode fd) h' hno (by omega) (.redir hshow hw)

end Redirections

section Arguments

/-- The loop over the words, up to a token that ends a command. -/
theorem parseargsFrom_complete (h0 : 0 ∉ text) {ws : List (List UInt8)} {rs : List Redirection} (hws : Words us ws rs) :
    ∀ k s c rs0 ws0, Toks text s (us ++ rest) → Follow [124, 41, 38, 59] rest → us.length < k → ws0.length + ws.length ≤ 9 →
      Shows text c (rs0.foldl Cmd.wrap (.exec ws0)) →
      wp (parseargsFrom text k ws0.length c) (fun c' s' => Toks text s' rest ∧
        Shows text c' ((rs0 ++ rs).foldl Cmd.wrap (.exec (ws0 ++ ws)))) (fun _ => False) s := by
  induction hws with
  | nil =>
    intro k s c rs0 ws0 h hrest hk hlen hshow
    obtain ⟨k, rfl⟩ := exists_succ hk
    rw [parseargsFrom, wp_bind]
    apply peek_spec h0 rfl h
    intro s1 h1
    rw [List.append_nil, List.append_nil]
    rcases hrest with rfl | hhead
    · rw [wp_ite]
      refine ⟨fun hf => absurd hf Bool.false_ne_true, fun _ => ?_⟩
      rw [wp_bind]
      apply gettoken_nil h1
      intro q eq s2 h2
      exact ⟨h2, hshow⟩
    · rw [List.nil_append, hhead, if_pos rfl]
      exact ⟨h1, hshow⟩
  | @cons w ts us ws rs rs' hrs hws ih =>
    intro k s c rs0 ws0 h hrest hk hlen hshow
    rw [List.length_cons, List.length_append] at hk
    rw [List.length_cons] at hlen
    obtain ⟨k, rfl⟩ := exists_succ hk
    rw [parseargsFrom, wp_bind]
    apply peek_spec h0 rfl h
    intro s1 h1
    rw [List.cons_append, List.append_assoc] at h1
    have hword : headIn [124, 41, 38, 59] (.word w :: (ts ++ us) ++ rest) = false := rfl
    rw [hword, if_neg Bool.false_ne_true, wp_bind]
    apply gettoken_cons h0 h1
    intro q eq s2 h2 hw
    have hmax : ¬ MAXARGS ≤ ws0.length + 1 := by
      rw [MAXARGS]
      omega
    dsimp only [Tok.code]
    rw [if_neg (by decide), if_neg (by decide), if_neg hmax, wp_bind]
    have hpush : Shows text (c.push (q, eq)) (rs0.foldl Cmd.wrap (.exec (ws0 ++ [w]))) := by
      have := hshow.push hw.toWord
      rwa [push_wrap] at this
    have hno : headIn [60, 62] (us ++ rest) = false := by
      cases hws with
      | nil => exact hrest.headIn rfl
      | cons hrs' hws' => rfl
    have hle := h2.length_le
    rw [List.length_append] at hle
    apply wp_mono (parseredirsFrom_complete h0 hrs _ s2 _ _ h2 hno (by omega) hpush) _ fun _ => id
    rintro c' s3 ⟨h3, hshow'⟩
    rw [← List.foldl_append] at hshow'
    have hnext := ih k s3 c' (rs0 ++ rs) (ws0 ++ [w]) h3 hrest (by omega)
      (by rw [List.length_append, List.length_singleton]; omega) hshow'
    rw [List.length_append, List.length_singleton, List.append_assoc, List.append_assoc, List.singleton_append] at hnext
    exact hnext

theorem parseargsFrom_sound (h0 : 0 ∉ text) : ∀ k s ts c rs0 ws0, Toks text s ts → ts.length < k → ws0.length ≤ 9 →
    Shows text c (rs0.foldl Cmd.wrap (.exec ws0)) →
    wp (parseargsFrom text k ws0.length c) (fun c' s' => ∃ us rest ws rs, ts = us ++ rest ∧ Words us ws rs ∧ Toks text s' rest ∧
      ws0.length + ws.length ≤ 9 ∧ Shows text c' ((rs0 ++ rs).foldl Cmd.wrap (.exec (ws0 ++ ws)))) Panics s := by
  intro k
  induction k with
  | zero =>
    intro s ts c rs0 ws0 _ hk
    exact absurd hk (Nat.not_lt_zero _)
  | succ k ih =>
    intro s ts c rs0 ws0 h hk hlen hshow
    have hdone : ∀ s', Toks text s' ts → ∃ us rest ws rs, ts = us ++ rest ∧ Words us ws rs ∧ Toks text s' rest ∧
        ws0.length + ws.length ≤ 9 ∧ Shows text c ((rs0 ++ rs).foldl Cmd.wrap (.exec (ws0 ++ ws))) := by
      intro s' h'
      refine ⟨[], ts, [], [], rfl, .nil, h', hlen, ?_⟩
      rw [List.append_nil, List.append_nil]
      exact hshow
    rw [parseargsFrom, wp_bind]
    apply peek_spec h0 rfl h
    intro s1 h1
    rw [wp_ite]
    refine ⟨fun _ => hdone s1 h1, fun _ => ?_⟩
    rw [wp_bind]
    cases ts with
    | nil =>
      apply gettoken_nil h1
      intro q eq s2 h2
      exact hdone s2 h2
    | cons t ts =>
      apply gettoken_cons h0 h1
      intro q eq s2 h2 ht
      dsimp only
      rw [if_neg t.code_ne_zero, wp_ite]
      refine ⟨fun _ => ⟨_, rfl⟩, fun hcode => ?_⟩
      obtain ⟨w, rfl⟩ := Tok.code_eq_word (not_not.mp hcode)
      rw [wp_ite]
      refine ⟨fun _ => ⟨_, rfl⟩, fun hmax => ?_⟩
      rw [wp_bind]
      have hpush : Shows text (c.push (q, eq)) (rs0.foldl Cmd.wrap (.exec (ws0 ++ [w]))) := by
        have := hshow.push ht.toWord
        rwa [push_wrap] at this
      have hle := h2.length_le
      apply wp_mono (parseredirsFrom_sound h0 _ s2 ts _ _ h2 (by omega) hpush) _ fun _ => id
      rintro c' s3 ⟨us, rest, rs, rfl, hrs, h3, hshow'⟩
      rw [← List.foldl_append] at hshow'
      rw [MAXARGS] at hmax
      rw [List.length_cons, List.length_append] at hk
      have hnext := ih s3 rest c' (rs0 ++ rs) (ws0 ++ [w]) h3 (by omega)
        (by rw [List.length_append, List.length_singleton]; omega) hshow'
      rw [List.length_append, List.length_singleton] at hnext
      apply wp_mono hnext _ fun _ => id
      rintro c2 s4 ⟨us', rest', ws, rs', rfl, hws, h4, hlen', hshow2⟩
      rw [List.append_assoc, List.append_assoc, List.singleton_append] at hshow2
      refine ⟨.word w :: (us ++ us'), rest', w :: ws, rs ++ rs', ?_, .cons hrs hws, h4, ?_, hshow2⟩
      · rw [List.cons_append, List.append_assoc]
      · rw [List.length_cons]
        omega

end Arguments

section Background

theorem parsebackFrom_sound (h0 : 0 ∉ text) : ∀ k s ts c d, Toks text s ts → ts.length < k → Shows text c d →
    wp (parsebackFrom text k c) (fun c' s' => ∃ n rest, ts = List.replicate n .amp ++ rest ∧ Toks text s' rest ∧
      Shows text c' (Cmd.back^[n] d)) Panics s := by
  intro k
  induction k with
  | zero =>
    intro s ts c d _ hk
    exact absurd hk (Nat.not_lt_zero _)
  | succ k ih =>
    intro s ts c d h hk hshow
    rw [parsebackFrom, wp_bind]
    apply peek_spec h0 rfl h
    intro s1 h1
    rw [wp_ite]
    refine ⟨fun hamp => ?_, fun _ => ⟨0, ts, rfl, h1, hshow⟩⟩
    obtain ⟨us, rfl⟩ := headIn_code .amp (by decide) hamp
    rw [wp_bind]
    apply gettoken_cons h0 h1
    intro _ _ s2 h2 _
    rw [List.length_cons] at hk
    apply wp_mono (ih s2 us _ _ h2 (by omega) hshow.back) _ fun _ => id
    rintro c' s3 ⟨n, rest, rfl, h3, hshow'⟩
    exact ⟨n + 1, rest, rfl, h3, hshow'⟩

theorem parsebackFrom_complete (h0 : 0 ∉ text) (hno : headIn [38] rest = false) : ∀ n k s c d,
    Toks text s (List.replicate n .amp ++ rest) → n < k → Shows text c d →
    wp (parsebackFrom text k c) (fun c' s' => Toks text s' rest ∧ Shows text c' (Cmd.back^[n] d)) (fun _ => False) s := by
  intro n
  induction n with
  | zero =>
    intro k s c d h hk hshow
    obtain ⟨k, rfl⟩ := exists_succ hk
    rw [parsebackFrom, wp_bind]
    apply peek_spec h0 rfl h
    intro s1 h1
    rw [List.replicate_zero, List.nil_append, hno, if_neg Bool.false_ne_true]
    exact ⟨h1, hshow⟩
  | succ n ih =>
    intro k s c d h hk hshow
    obtain ⟨k, rfl⟩ := exists_succ hk
    rw [parsebackFrom, wp_bind]
    apply peek_spec h0 rfl h
    intro s1 h1
    rw [List.replicate_succ, List.cons_append] at h1 ⊢
    rw [if_pos (show headIn [38] (.amp :: _) = true from rfl), wp_bind]
    apply gettoken_cons h0 h1
    intro _ _ s2 h2 _
    exact ih k s2 _ _ h2 (by omega) hshow.back

end Background

section Sound

/-- The parser returns a tree of what it has read. -/
def Sound (text : List UInt8) (n : Nonterminal) (m : ParseM (Cmd Span)) (s : ℕ) (ts : List Tok) : Prop :=
  wp m (fun c s' => ∃ us rest d, ts = us ++ rest ∧ Derives n us d ∧ Toks text s' rest ∧ Shows text c d) Panics s

theorem parseline_step (h0 : 0 ∉ text) (h : Toks text s ts) (hpipe : Sound text .pipe (parsepipe text k) s ts)
    (hline : ∀ s' us, Toks text s' us → us.length < ts.length → Sound text .line (parseline text k) s' us) :
    Sound text .line (parseline text (k + 1)) s ts := by
  rw [Sound, parseline, wp_bind]
  apply wp_mono hpipe _ fun _ => id
  rintro c s1 ⟨us, ts1, d, rfl, hd, h1, hshow⟩
  rw [wp_bind]
  have hle := h1.length_le
  apply wp_mono (parsebackFrom_sound h0 _ s1 ts1 c d h1 (by omega) hshow) _ fun _ => id
  rintro c' s2 ⟨n, ts2, rfl, h2, hshow'⟩
  rw [wp_bind]
  apply peek_spec h0 rfl h2
  intro s3 h3
  rw [wp_ite]
  constructor
  · intro hsemi
    obtain ⟨ts3, rfl⟩ := headIn_code .semi (by decide) hsemi
    rw [wp_bind]
    apply gettoken_cons h0 h3
    intro _ _ s4 h4 _
    rw [wp_bind]
    apply wp_mono (hline s4 ts3 h4 (by simp only [List.length_append, List.length_cons]; omega)) _ fun _ => id
    rintro c2 s5 ⟨vs, rest, d2, rfl, hd2, h5, hshow2⟩
    refine ⟨us ++ List.replicate n .amp ++ .semi :: vs, rest, _, ?_, .list n hd hd2, h5, .list hshow' hshow2⟩
    simp only [List.append_assoc, List.cons_append]
  · intro _
    exact ⟨us ++ List.replicate n .amp, ts2, _, (List.append_assoc ..).symm, .line n hd, h3, hshow'⟩

theorem parsepipe_step (h0 : 0 ∉ text) (hexec : Sound text .exec (parseexec text k) s ts)
    (hpipe : ∀ s' us, Toks text s' us → us.length < ts.length → Sound text .pipe (parsepipe text k) s' us) :
    Sound text .pipe (parsepipe text (k + 1)) s ts := by
  rw [Sound, parsepipe, wp_bind]
  apply wp_mono hexec _ fun _ => id
  rintro c s1 ⟨us, ts1, d, rfl, hd, h1, hshow⟩
  rw [wp_bind]
  apply peek_spec h0 rfl h1
  intro s2 h2
  rw [wp_ite]
  constructor
  · intro hbar
    obtain ⟨ts2, rfl⟩ := headIn_code .bar (by decide) hbar
    rw [wp_bind]
    apply gettoken_cons h0 h2
    intro _ _ s3 h3 _
    rw [wp_bind]
    apply wp_mono (hpipe s3 ts2 h3 (by simp only [List.length_append, List.length_cons]; omega)) _ fun _ => id
    rintro c2 s4 ⟨vs, rest, d2, rfl, hd2, h4, hshow2⟩
    refine ⟨us ++ .bar :: vs, rest, _, ?_, .pipe hd hd2, h4, .pipe hshow hshow2⟩
    simp only [List.append_assoc, List.cons_append]
  · intro _
    exact ⟨us, ts1, d, rfl, .single hd, h2, hshow⟩

theorem parseexec_step (h0 : 0 ∉ text) (h : Toks text s ts)
    (hblock : ∀ s' us, Toks text s' (.lpar :: us) → ts = .lpar :: us → Sound text .exec (parseblock text k) s' ts) :
    Sound text .exec (parseexec text (k + 1)) s ts := by
  rw [Sound, parseexec, wp_bind]
  apply peek_spec h0 rfl h
  intro s1 h1
  rw [wp_ite]
  constructor
  · intro hlpar
    obtain ⟨us, rfl⟩ := headIn_code .lpar (by decide) hlpar
    exact hblock s1 us h1 rfl
  · intro _
    rw [wp_bind]
    have hle := h1.length_le
    apply wp_mono (parseredirsFrom_sound h0 _ s1 ts _ _ h1 (by omega) (.exec .nil)) _ fun _ => id
    rintro c s2 ⟨us, ts1, rs, rfl, hrs, h2, hshow⟩
    have hle := h2.length_le
    apply wp_mono (parseargsFrom_sound h0 _ s2 ts1 c rs [] h2 (by omega) (Nat.zero_le _) hshow) _ fun _ => id
    rintro c' s3 ⟨vs, rest, ws, rs', rfl, hws, h3, hlen, hshow'⟩
    rw [List.length_nil, Nat.zero_add] at hlen
    exact ⟨us ++ vs, rest, _, (List.append_assoc ..).symm, .words hrs hws hlen, h3, hshow'⟩

theorem parseblock_step (h0 : 0 ∉ text) (h : Toks text s (.lpar :: ts))
    (hline : ∀ s', Toks text s' ts → Sound text .line (parseline text k) s' ts) :
    Sound text .exec (parseblock text (k + 1)) s (.lpar :: ts) := by
  rw [Sound, parseblock, wp_bind]
  apply peek_spec h0 rfl h
  intro s1 h1
  rw [if_pos (show headIn [40] (.lpar :: ts) = true from rfl), wp_bind]
  apply gettoken_cons h0 h1
  intro _ _ s2 h2 _
  rw [wp_bind]
  apply wp_mono (hline s2 h2) _ fun _ => id
  rintro c s3 ⟨us, ts1, d, rfl, hd, h3, hshow⟩
  rw [wp_bind]
  apply peek_spec h0 rfl h3
  intro s4 h4
  rw [wp_ite]
  constructor
  · intro hrpar
    obtain ⟨ts2, rfl⟩ := headIn_code .rpar (by decide) hrpar
    rw [wp_bind]
    apply gettoken_cons h0 h4
    intro _ _ s5 h5 _
    have hle := h5.length_le
    apply wp_mono (parseredirsFrom_sound h0 _ s5 ts2 c d h5 (by omega) hshow) _ fun _ => id
    rintro c' s6 ⟨vs, rest, rs, rfl, hrs, h6, hshow'⟩
    refine ⟨.lpar :: (us ++ .rpar :: vs), rest, _, ?_, .block hd hrs, h6, hshow'⟩
    simp only [List.cons_append, List.append_assoc]
  · intro _
    exact ⟨_, rfl⟩

/-- Each token is worth four calls. -/
theorem parse_sound (h0 : 0 ∉ text) : ∀ k,
    (∀ s ts, Toks text s ts → 4 * ts.length + 4 ≤ k → Sound text .line (parseline text k) s ts) ∧
    (∀ s ts, Toks text s ts → 4 * ts.length + 3 ≤ k → Sound text .pipe (parsepipe text k) s ts) ∧
    (∀ s ts, Toks text s ts → 4 * ts.length + 2 ≤ k → Sound text .exec (parseexec text k) s ts) ∧
    (∀ s ts, Toks text s (.lpar :: ts) → 4 * ts.length + 5 ≤ k → Sound text .exec (parseblock text k) s (.lpar :: ts)) := by
  intro k
  induction k with
  | zero =>
    refine ⟨?_, ?_, ?_, ?_⟩
    all_goals
      intro s ts _ hk
      omega
  | succ k ih =>
    obtain ⟨hline, hpipe, hexec, hblock⟩ := ih
    refine ⟨?_, ?_, ?_, ?_⟩
    · intro s ts h hk
      apply parseline_step h0 h (hpipe s ts h (by omega))
      intro s' us h' hlt
      exact hline s' us h' (by omega)
    · intro s ts h hk
      apply parsepipe_step h0 (hexec s ts h (by omega))
      intro s' us h' hlt
      exact hpipe s' us h' (by omega)
    · intro s ts h hk
      apply parseexec_step h0 h
      rintro s' us h' rfl
      rw [List.length_cons] at hk
      exact hblock s' us h' (by omega)
    · intro s ts h hk
      apply parseblock_step h0 h
      intro s' h'
      exact hline s' ts h' (by omega)

end Sound

section Complete

/-- The parser of a nonterminal. -/
def parser (text : List UInt8) : Nonterminal → ℕ → ParseM (Cmd Span)
  | .line => parseline text
  | .pipe => parsepipe text
  | .exec => parseexec text

/-- What can stand behind it. -/
def followSet : Nonterminal → List UInt8
  | .line => [41]
  | .pipe => [38, 59, 41]
  | .exec => [124, 41, 38, 59]

/-- The calls that it may take before it has read a token. -/
def depth : Nonterminal → ℕ
  | .line => 4
  | .pipe => 3
  | .exec => 2

theorem parse_complete (h0 : 0 ∉ text) {n : Nonterminal} (hd : Derives n ts d) : ∀ k s rest, Toks text s (ts ++ rest) →
    Follow (followSet n) rest → 4 * (ts ++ rest).length + depth n ≤ k →
    wp (parser text n k) (fun c s' => Toks text s' rest ∧ Shows text c d) (fun _ => False) s := by
  induction hd with
  | @line ts d m hd ih =>
    intro k s rest h hrest hk
    obtain ⟨k, rfl⟩ := exists_succ (Nat.lt_of_lt_of_le (Nat.succ_pos _) hk)
    rw [List.append_assoc] at h hk
    have hpipe : Follow (followSet .pipe) (List.replicate m .amp ++ rest) := by
      cases m with
      | zero => exact hrest.mono rfl
      | succ m => exact .inr rfl
    rw [parser, parseline, wp_bind]
    apply wp_mono (ih k s _ h hpipe (by simp only [depth] at hk ⊢; omega)) _ fun _ => id
    rintro c s1 ⟨h1, hshow⟩
    have hle := h1.length_le
    rw [List.length_append, List.length_replicate] at hle
    rw [wp_bind]
    apply wp_mono (parsebackFrom_complete h0 (hrest.headIn rfl) m _ s1 c d h1 (by omega) hshow) _ fun _ => id
    rintro c' s2 ⟨h2, hshow'⟩
    rw [wp_bind]
    apply peek_spec h0 rfl h2
    intro s3 h3
    rw [hrest.headIn rfl, if_neg Bool.false_ne_true]
    exact ⟨h3, hshow'⟩
  | @list ts us d d' m hd hd' ih ih' =>
    intro k s rest h hrest hk
    obtain ⟨k, rfl⟩ := exists_succ (Nat.lt_of_lt_of_le (Nat.succ_pos _) hk)
    rw [List.append_assoc, List.append_assoc, List.cons_append] at h hk
    have hpipe : Follow (followSet .pipe) (List.replicate m .amp ++ .semi :: (us ++ rest)) := by
      cases m with
      | zero => exact .inr rfl
      | succ m => exact .inr rfl
    rw [parser, parseline, wp_bind]
    apply wp_mono (ih k s _ h hpipe (by simp only [depth] at hk ⊢; omega)) _ fun _ => id
    rintro c s1 ⟨h1, hshow⟩
    have hle := h1.length_le
    rw [List.length_append, List.length_replicate] at hle
    rw [wp_bind]
    apply wp_mono (parsebackFrom_complete h0 rfl m _ s1 c d h1 (by omega) hshow) _ fun _ => id
    rintro c' s2 ⟨h2, hshow'⟩
    rw [wp_bind]
    apply peek_spec h0 rfl h2
    intro s3 h3
    rw [if_pos (show headIn [59] (.semi :: _) = true from rfl), wp_bind]
    apply gettoken_cons h0 h3
    intro _ _ s4 h4 _
    rw [wp_bind]
    apply wp_mono (ih' k s4 rest h4 hrest (by simp only [depth, List.length_append, List.length_cons] at hk ⊢; omega)) _ fun _ => id
    rintro c2 s5 ⟨h5, hshow2⟩
    exact ⟨h5, .list hshow' hshow2⟩
  | @single ts d hd ih =>
    intro k s rest h hrest hk
    obtain ⟨k, rfl⟩ := exists_succ (Nat.lt_of_lt_of_le (Nat.succ_pos _) hk)
    rw [parser, parsepipe, wp_bind]
    apply wp_mono (ih k s rest h (hrest.mono rfl) (by simp only [depth] at hk ⊢; omega)) _ fun _ => id
    rintro c s1 ⟨h1, hshow⟩
    rw [wp_bind]
    apply peek_spec h0 rfl h1
    intro s2 h2
    rw [hrest.headIn rfl, if_neg Bool.false_ne_true]
    exact ⟨h2, hshow⟩
  | @pipe ts us d d' hd hd' ih ih' =>
    intro k s rest h hrest hk
    obtain ⟨k, rfl⟩ := exists_succ (Nat.lt_of_lt_of_le (Nat.succ_pos _) hk)
    rw [List.append_assoc, List.cons_append] at h hk
    rw [parser, parsepipe, wp_bind]
    apply wp_mono (ih k s _ h (.inr rfl) (by simp only [depth] at hk ⊢; omega)) _ fun _ => id
    rintro c s1 ⟨h1, hshow⟩
    rw [wp_bind]
    apply peek_spec h0 rfl h1
    intro s2 h2
    rw [if_pos (show headIn [124] (.bar :: _) = true from rfl), wp_bind]
    apply gettoken_cons h0 h2
    intro _ _ s3 h3 _
    rw [wp_bind]
    apply wp_mono (ih' k s3 rest h3 hrest (by simp only [depth, List.length_append, List.length_cons] at hk ⊢; omega)) _ fun _ => id
    rintro c2 s4 ⟨h4, hshow2⟩
    exact ⟨h4, .pipe hshow hshow2⟩
  | @block ts us d rs hd hrs ih =>
    intro k s rest h hrest hk
    rw [List.cons_append, List.append_assoc, List.cons_append] at h hk
    obtain ⟨k, rfl⟩ : ∃ j, k = j + 2 := ⟨k - 2, by simp only [depth] at hk; omega⟩
    have hlpar : ∀ us', headIn [40] (.lpar :: us') = true := fun _ => rfl
    rw [parser, parseexec, wp_bind]
    apply peek_spec h0 rfl h
    intro s1 h1
    rw [hlpar, if_pos rfl, parseblock, wp_bind]
    apply peek_spec h0 rfl h1
    intro s2 h2
    rw [hlpar, if_pos rfl, wp_bind]
    apply gettoken_cons h0 h2
    intro _ _ s3 h3 _
    rw [wp_bind]
    apply wp_mono (ih k s3 _ h3 (.inr rfl) (by simp only [depth, List.length_cons] at hk ⊢; omega)) _ fun _ => id
    rintro c s4 ⟨h4, hshow⟩
    rw [wp_bind]
    apply peek_spec h0 rfl h4
    intro s5 h5
    rw [if_pos (show headIn [41] (.rpar :: _) = true from rfl), wp_bind]
    apply gettoken_cons h0 h5
    intro _ _ s6 h6 _
    have hle := h6.length_le
    rw [List.length_append] at hle
    exact parseredirsFrom_complete h0 hrs _ s6 c d h6 (hrest.headIn rfl) (by omega) hshow
  | @words ts us ws rs rs' hrs hws hlen =>
    intro k s rest h hrest hk
    obtain ⟨k, rfl⟩ := exists_succ (Nat.lt_of_lt_of_le (Nat.succ_pos _) hk)
    rw [List.append_assoc] at h
    have hargs : headIn [40] (us ++ rest) = false ∧ headIn [60, 62] (us ++ rest) = false := by
      cases hws with
      | nil => exact ⟨hrest.headIn rfl, hrest.headIn rfl⟩
      | cons => exact ⟨rfl, rfl⟩
    have hno : headIn [40] (ts ++ (us ++ rest)) = false := by
      cases hrs with
      | nil => exact hargs.1
      | @cons t _ _ _ _ _ ht =>
        cases t with
        | lt | gt | append => rfl
        | word | bar | amp | semi | lpar | rpar => cases ht
    rw [parser, parseexec, wp_bind]
    apply peek_spec h0 rfl h
    intro s1 h1
    rw [hno, if_neg Bool.false_ne_true, wp_bind]
    have hle := h1.length_le
    rw [List.length_append] at hle
    apply wp_mono (parseredirsFrom_complete h0 hrs _ s1 _ _ h1 hargs.2 (by omega) (.exec .nil)) _ fun _ => id
    rintro c s2 ⟨h2, hshow⟩
    have hle := h2.length_le
    rw [List.length_append] at hle
    exact parseargsFrom_complete h0 hws _ s2 c rs [] h2 hrest (by omega) (by rw [List.length_nil]; omega) hshow

end Complete

end Xv6.Sh
