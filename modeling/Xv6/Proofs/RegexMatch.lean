import Xv6.Spec.Grep

/-! What `grep` matches. A pattern is read as items; `matchhere` tries the ways to split the text into pieces for them, one
item after the other, and `matchstar` the lengths of a piece. -/

namespace Xv6.Grep

open Ulib (Stop)

section Language

/-- An item of a pattern. -/
inductive Item where
  | star (c : UInt8)
  | eol
  | any
  | char (c : UInt8)
  deriving DecidableEq

/-- A pattern from left to right: `c*`, a `$` at the end, `.`, or a character. -/
def items : List UInt8 → List Item
  | [] => []
  | c :: 42 :: re => .star c :: items re
  | [36] => [.eol]
  | c :: re => (if c = 46 then .any else .char c) :: items re

def Item.Takes : Item → List UInt8 → Prop
  | .star c, piece => ∀ b ∈ piece, b = c ∨ c = 46
  | .eol, piece => piece = []
  | .any, piece => ∃ b, piece = [b]
  | .char c, piece => piece = [c]

/-- The text is made of consecutive pieces that the items take. -/
def Splits : List Item → List UInt8 → Prop
  | [], text => text = []
  | item :: its, text => ∃ piece rest, text = piece ++ rest ∧ item.Takes piece ∧ Splits its rest

/-- The pattern without a `^` at its start. -/
def body (re : List UInt8) : List UInt8 := if re.head? = some 94 then re.tail else re

/-- The language of a pattern. -/
def Accepts (re text : List UInt8) : Prop :=
  ∃ pre sub post, text = pre ++ sub ++ post ∧ (re.head? = some 94 → pre = []) ∧ (.eol ∈ items (body re) → post = []) ∧
    Splits (items (body re)) sub

/-- The items take the start of the text, all of it if they end in `$`. -/
def Here (its : List Item) (text : List UInt8) : Prop :=
  ∃ sub post, text = sub ++ post ∧ (.eol ∈ its → post = []) ∧ Splits its sub

variable {its : List Item} {text : List UInt8} {c : UInt8}

theorem here_nil : Here [] text := ⟨[], text, rfl, nofun, rfl⟩

theorem here_cons {item : Item} (hne : item ≠ .eol) :
    Here (item :: its) text ↔ ∃ piece rest, text = piece ++ rest ∧ item.Takes piece ∧ Here its rest := by
  constructor
  · rintro ⟨sub, post, rfl, hend, piece, rest, rfl, htakes, hsplit⟩
    refine ⟨piece, rest ++ post, List.append_assoc .., htakes, rest, post, rfl, fun hmem => ?_, hsplit⟩
    exact hend (List.mem_cons_of_mem _ hmem)
  · rintro ⟨piece, rest, rfl, htakes, sub, post, rfl, hend, hsplit⟩
    refine ⟨piece ++ sub, post, (List.append_assoc ..).symm, fun hmem => ?_, piece, sub, rfl, htakes, hsplit⟩
    exact hend ((List.mem_cons.mp hmem).resolve_left hne.symm)

theorem here_eol : Here [.eol] text ↔ text = [] := by
  constructor
  · rintro ⟨sub, post, rfl, hend, piece, rest, rfl, rfl, rfl⟩
    exact hend (List.mem_singleton_self _)
  · rintro rfl
    exact ⟨[], [], rfl, fun _ => rfl, [], [], rfl, rfl, rfl⟩

/-- A star takes nothing, or a character and then as before. -/
theorem here_star : Here (.star c :: its) text ↔
    Here its text ∨ ∃ b rest, text = b :: rest ∧ (b = c ∨ c = 46) ∧ Here (.star c :: its) rest := by
  have hstar : ∀ {t}, Here (.star c :: its) t ↔ ∃ piece rest, t = piece ++ rest ∧ (Item.star c).Takes piece ∧ Here its rest :=
    here_cons nofun
  rw [hstar]
  constructor
  · rintro ⟨piece, rest, rfl, htakes, h⟩
    cases piece with
    | nil => exact .inl h
    | cons b piece =>
      obtain ⟨hb, hpiece⟩ := List.forall_mem_cons.mp htakes
      exact .inr ⟨b, piece ++ rest, rfl, hb, hstar.mpr ⟨piece, rest, rfl, hpiece, h⟩⟩
  · rintro (h | ⟨b, rest, rfl, hb, h⟩)
    · exact ⟨[], text, rfl, nofun, h⟩
    · obtain ⟨piece, rest, rfl, hpiece, h⟩ := hstar.mp h
      exact ⟨b :: piece, rest, rfl, List.forall_mem_cons.mpr ⟨hb, hpiece⟩, h⟩

/-- A single character takes one that fits. -/
theorem here_single : Here ((if c = 46 then .any else .char c) :: its) text ↔
    ∃ b rest, text = b :: rest ∧ (c = 46 ∨ c = b) ∧ Here its rest := by
  rw [here_cons (by split_ifs <;> nofun)]
  constructor
  · rintro ⟨piece, rest, rfl, htakes, h⟩
    split_ifs at htakes with hc
    · obtain ⟨b, rfl⟩ := htakes
      exact ⟨b, rest, rfl, .inl hc, h⟩
    · obtain rfl := htakes
      exact ⟨c, rest, rfl, .inr rfl, h⟩
  · rintro ⟨b, rest, rfl, hb, h⟩
    refine ⟨[b], rest, rfl, ?_, h⟩
    split_ifs with hc
    · exact ⟨b, rfl⟩
    · rw [hb.resolve_left hc]
      rfl

end Language

section Pointers

variable {s r : List UInt8} {i : ℕ} {c : UInt8}

/-- The pointer `i` into `s` is at the suffix `r`. -/
def At (s : List UInt8) (i : ℕ) (r : List UInt8) : Prop := ∃ p, s = p ++ r ∧ i = p.length

theorem At.nul (h : At s i []) : deref s i = .ok 0 := by
  obtain ⟨p, rfl, rfl⟩ := h
  simp [deref]

theorem At.byte (h : At s i (c :: r)) : deref s i = .ok c := by
  obtain ⟨p, rfl, rfl⟩ := h
  simp [deref]

theorem At.headD (h : At s i r) : deref s i = .ok (r.headD 0) := by
  cases r with
  | nil => exact h.nul
  | cons c r => exact h.byte

theorem At.ne_zero (h : At s i (c :: r)) (hs : 0 ∉ s) : c ≠ 0 := by
  obtain ⟨p, rfl, -⟩ := h
  rintro rfl
  exact hs (List.mem_append_right _ List.mem_cons_self)

theorem At.headD_eq_zero (h : At s i r) (hs : 0 ∉ s) : r.headD 0 = 0 ↔ r = [] := by
  cases r with
  | nil => simp
  | cons c r => simpa using h.ne_zero hs

theorem At.next (h : At s i (c :: r)) : At s (i + 1) r := by
  obtain ⟨p, rfl, rfl⟩ := h
  exact ⟨p ++ [c], by simp, by simp⟩

end Pointers

section Matcher

/-- A result that says whether `P` holds. -/
def Tells (res : Except Stop Bool) (P : Prop) : Prop := ∃ b, res = .ok b ∧ (b = true ↔ P)

theorem Tells.congr {res : Except Stop Bool} {P Q : Prop} (h : Tells res P) (hPQ : P ↔ Q) : Tells res Q := by
  obtain ⟨b, hb, hbP⟩ := h
  exact ⟨b, hb, hbP.trans hPQ⟩

/-- A test, and another one if it fails. -/
theorem Tells.orElse {res other : Except Stop Bool} {P Q : Prop} (h : Tells res P) (h' : Tells other Q) :
    Tells (do if ← res then return true else other) (P ∨ Q) := by
  obtain ⟨b, rfl, hb⟩ := h
  cases b with
  | true => exact ⟨true, rfl, fun _ => .inl (hb.mp rfl), fun _ => rfl⟩
  | false =>
    have hP : ¬ P := fun hp => nomatch hb.mpr hp
    exact h'.congr ⟨.inr, fun h => h.resolve_left hP⟩

theorem items_single {c : UInt8} {r : List UInt8} (hstar : r.head? ≠ some 42) (heol : ¬ (c = 36 ∧ r = [])) :
    items (c :: r) = (if c = 46 then .any else .char c) :: items r := by
  rw [items.eq_def]
  split
  · next h => cases h
  · next h =>
    obtain ⟨-, rfl⟩ := List.cons.inj h
    exact absurd rfl hstar
  · next h => exact absurd (List.cons.inj h) heol
  · next h =>
    obtain ⟨rfl, rfl⟩ := List.cons.inj h
    rfl

variable {re text : List UInt8} (hre : 0 ∉ re) (htext : 0 ∉ text)

include htext in
/-- The text goes on with a character for which `rest` tells `Q`. -/
theorem tells_step {t : List UInt8} {j : ℕ} {ok : UInt8 → Prop} [DecidablePred ok] {rest : Except Stop Bool}
    {Q : List UInt8 → Prop} (ht : At text j t) (h : ∀ b t', t = b :: t' → ok b → Tells rest (Q t')) :
    Tells (do let b ← deref text j; if b ≠ 0 ∧ ok b then rest else return false) (∃ b t', t = b :: t' ∧ ok b ∧ Q t') := by
  cases t with
  | nil =>
    rw [ht.nul]
    refine ⟨false, rfl, nofun, ?_⟩
    rintro ⟨b, t', ht', -⟩
    cases ht'
  | cons b t' =>
    have hb : b ≠ 0 := ht.ne_zero htext
    rw [ht.byte]
    change Tells (if b ≠ 0 ∧ ok b then rest else return false) _
    split_ifs with hok
    · refine (h b t' rfl hok.2).congr ⟨fun hQ => ⟨b, t', rfl, hok.2, hQ⟩, ?_⟩
      rintro ⟨b', t'', heq, -, hQ⟩
      cases heq
      exact hQ
    · refine ⟨false, rfl, nofun, ?_⟩
      rintro ⟨b', t'', heq, hok', -⟩
      cases heq
      exact absurd ⟨hb, hok'⟩ hok

include hre htext

/-- What remains of the pattern and of the text bounds the depth. -/
theorem matcher_tells (n : ℕ) :
    (∀ {i j r t}, At re i r → At text j t → 2 * r.length + t.length < n →
      Tells (matchhere re text n i j) (Here (items r) t)) ∧
    ∀ {c i j r t}, At re i r → At text j t → 2 * r.length + t.length + 1 < n →
      Tells (matchstar re text n c i j) (Here (.star c :: items r) t) := by
  induction n with
  | zero => exact ⟨fun _ _ h => absurd h (Nat.not_lt_zero _), fun _ _ h => absurd h (Nat.not_lt_zero _)⟩
  | succ n ih =>
    refine ⟨fun {i j r t} hr ht hn => ?_, fun {c i j r t} hr ht hn => ?_⟩
    · rw [matchhere]
      cases r with
      | nil =>
        rw [hr.nul]
        exact ⟨true, rfl, fun _ => here_nil, fun _ => rfl⟩
      | cons c r =>
        rw [hr.byte]
        change Tells (if c = 0 then pure true else _) _
        rw [if_neg (hr.ne_zero hre), hr.next.headD]
        change Tells (if r.headD 0 = 42 then _ else _) _
        simp only [List.length_cons] at hn
        split_ifs with hstar heol
        · obtain ⟨r', rfl⟩ : ∃ r', r = 42 :: r' := by
            cases r with
            | nil => cases hstar
            | cons d r' => exact ⟨r', by rw [← hstar]; rfl⟩
          simp only [List.length_cons] at hn
          exact ih.2 hr.next.next ht (by omega)
        · obtain ⟨rfl, hnil⟩ := heol
          obtain rfl := (hr.next.headD_eq_zero hre).mp hnil
          rw [ht.headD]
          exact ⟨decide (t.headD 0 = 0), rfl, by rw [decide_eq_true_iff, ht.headD_eq_zero htext]; exact here_eol.symm⟩
        · rw [hr.next.headD_eq_zero hre] at heol
          have hhead : r.head? ≠ some 42 := by
            intro hh
            rw [List.headD_eq_head?_getD, hh] at hstar
            exact hstar rfl
          rw [items_single hhead heol]
          refine (tells_step htext ht fun b t' heq _ => ?_).congr here_single.symm
          subst heq
          exact ih.1 hr.next ht.next (by simp only [List.length_cons] at hn; omega)
    · rw [matchstar]
      refine (Tells.orElse (ih.1 hr ht (by omega)) (tells_step htext ht fun b t' heq _ => ?_)).congr here_star.symm
      subst heq
      exact ih.2 hr ht.next (by simp only [List.length_cons] at hn; omega)

/-- The loop of `match` finds a start for the items if there is one. -/
theorem matchFrom_tells (n : ℕ) {j : ℕ} {t : List UInt8} (ht : At text j t) (hn : 2 * re.length + t.length + 1 < n) :
    Tells (matchFrom re text n j) (∃ pre t', t = pre ++ t' ∧ Here (items re) t') := by
  induction n generalizing j t with
  | zero => omega
  | succ n ih =>
    have hstart := (matcher_tells hre htext n).1 (r := re) ⟨[], rfl, rfl⟩ ht (by omega)
    rw [matchFrom]
    refine (Tells.orElse hstart (Q := ∃ b t1, t = b :: t1 ∧ ∃ pre t', t1 = pre ++ t' ∧ Here (items re) t') ?_).congr ?_
    · have hrest : ∀ b t1, t = b :: t1 → True →
          Tells (matchFrom re text n (j + 1)) (∃ pre t', t1 = pre ++ t' ∧ Here (items re) t') := by
        rintro b t1 rfl -
        exact ih ht.next (by rw [List.length_cons] at hn; omega)
      simpa only [and_true, true_and] using tells_step htext ht hrest
    · constructor
      · rintro (hhere | ⟨b, t1, rfl, pre, t', rfl, hhere⟩)
        · exact ⟨[], t, rfl, hhere⟩
        · exact ⟨b :: pre, t', rfl, hhere⟩
      · rintro ⟨pre, t', rfl, hhere⟩
        cases pre with
        | nil => exact .inl hhere
        | cons b pre => exact .inr ⟨b, pre ++ t', rfl, pre, t', rfl, hhere⟩

end Matcher

theorem At.mk {s : List UInt8} {i : ℕ} (hi : i ≤ s.length) : At s i (s.drop i) :=
  ⟨s.take i, (List.take_append_drop i s).symm, by simp [hi]⟩

/-- With `^` the items start where the text does, else anywhere. -/
theorem accepts_iff {re text : List UInt8} : Accepts re text ↔
    if re.head? = some 94 then Here (items re.tail) text else ∃ pre t, text = pre ++ t ∧ Here (items re) t := by
  unfold Accepts body
  split_ifs with hhat
  · constructor
    · rintro ⟨pre, sub, post, rfl, hpre, h⟩
      exact ⟨sub, post, by rw [hpre hhat, List.nil_append], h⟩
    · rintro ⟨sub, post, rfl, h⟩
      exact ⟨[], sub, post, rfl, fun _ => rfl, h⟩
  · constructor
    · rintro ⟨pre, sub, post, rfl, -, h⟩
      exact ⟨pre, sub ++ post, List.append_assoc .., sub, post, rfl, h⟩
    · rintro ⟨pre, t, rfl, sub, post, rfl, h⟩
      exact ⟨pre, sub, post, (List.append_assoc ..).symm, fun hc => absurd hc hhat, h⟩

theorem matchText_tells {re text : List UInt8} (hre : 0 ∉ re) (htext : 0 ∉ text) {n : ℕ}
    (hn : 2 * re.length + text.length + 1 < n) : Tells (matchText re text n) (Accepts re text) := by
  have h0 : At text 0 text := ⟨[], rfl, rfl⟩
  have hr : At re 0 re := ⟨[], rfl, rfl⟩
  rw [matchText, hr.headD]
  change Tells (if re.headD 0 = 94 then _ else _) _
  have hhead : re.headD 0 = 94 ↔ re.head? = some 94 := by cases re <;> simp
  refine Tells.congr ?_ accepts_iff.symm
  split_ifs with h h' h'
  · cases re with
    | nil => cases h
    | cons c re => exact (matcher_tells hre htext n).1 (r := re) hr.next h0 (by rw [List.length_cons] at hn; omega)
  · exact absurd (hhead.mp h) h'
  · exact absurd (hhead.mpr h') h
  · exact matchFrom_tells hre htext n h0 hn

/-- **The matcher implements its language.** For every pattern and text `match` returns and says whether the pattern accepts
the text; it and its two helpers, from any two positions, return without a look past either NUL. -/
theorem match_accepts {re text : List UInt8} (hre : 0 ∉ re) (htext : 0 ∉ text) {n : ℕ}
    (hn : 2 * re.length + text.length + 1 < n) :
    (∃ b, matchText re text n = .ok b ∧ (b = true ↔ Accepts re text)) ∧
    ∀ i ≤ re.length, ∀ j ≤ text.length,
      (∃ b, matchhere re text n i j = .ok b) ∧ ∀ c, ∃ b, matchstar re text n c i j = .ok b := by
  refine ⟨matchText_tells hre htext hn, fun i hi j hj => ?_⟩
  obtain ⟨hhere, hstar⟩ := matcher_tells hre htext n
  have hlen : 2 * (re.drop i).length + (text.drop j).length + 1 < n := by
    rw [List.length_drop, List.length_drop]
    omega
  obtain ⟨b, hb, -⟩ := hhere (.mk hi) (.mk hj) (by omega)
  exact ⟨⟨b, hb⟩, fun c => (hstar (.mk hi) (.mk hj) hlen).imp fun _ h => h.1⟩

/-- `^a.*b$` on `axb`. -/
theorem match_accepts_anchored :
    ∃ b, matchText [94, 97, 46, 42, 98, 36] [97, 120, 98] 20 = .ok b ∧
      (b = true ↔ Accepts [94, 97, 46, 42, 98, 36] [97, 120, 98]) :=
  (match_accepts (by decide) (by decide) (by decide)).1

end Xv6.Grep
