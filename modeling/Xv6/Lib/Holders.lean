import Mathlib.Data.Set.Card
import Mathlib.Algebra.BigOperators.Fin
import Mathlib.Data.Finset.Card

/-! A table whose entries hold at most one resource each, next to a set of resources held elsewhere. -/

namespace Holders

variable {P R : Type} [DecidableEq P] {g : P → Option R} {Z Z' : Set R} {p : P} {r : R}

def holdings (g : P → Option R) (Z : Set R) : Set R := {r | (∃ p, g p = some r) ∨ r ∈ Z}

/-- No resource is held twice. -/
structure Apart (g : P → Option R) (Z : Set R) : Prop where
  inj : ∀ {p q r}, g p = some r → g q = some r → p = q
  ne : ∀ {p r}, g p = some r → r ∉ Z

omit [DecidableEq P] in
theorem mem_holdings (h : g p = some r) : r ∈ holdings g Z := .inl ⟨p, h⟩

omit [DecidableEq P] in
theorem holdings_insert (g : P → Option R) (Z : Set R) (r : R) : holdings g (insert r Z) = insert r (holdings g Z) := by
  ext x
  simp only [holdings, Set.mem_ofPred_eq, Set.mem_insert_iff]
  exact or_left_comm

omit [DecidableEq P] in
theorem Apart.holdings_sdiff (h : Apart g Z) (hA : Z' ⊆ Z) : holdings g (Z \ Z') = holdings g Z \ Z' := by
  ext x
  simp only [holdings, Set.mem_ofPred_eq, Set.mem_sdiff]
  constructor
  · rintro (⟨p, hp⟩ | ⟨hx, hne⟩)
    · exact ⟨.inl ⟨p, hp⟩, fun he => h.ne hp (hA he)⟩
    · exact ⟨.inr hx, hne⟩
  · rintro ⟨hp | hx, hne⟩
    · exact .inl hp
    · exact .inr ⟨hx, hne⟩

theorem Apart.holdings_clear (h : Apart g Z) (hp : g p = some r) :
    holdings (Function.update g p none) Z = holdings g Z \ {r} := by
  ext x
  simp only [holdings, Set.mem_ofPred_eq, Set.mem_sdiff, Set.mem_singleton_iff]
  constructor
  · rintro (⟨q, hq⟩ | hx)
    · have hqp : q ≠ p := by
        rintro rfl
        simp at hq
      rw [Function.update_of_ne hqp] at hq
      exact ⟨.inl ⟨q, hq⟩, fun he => hqp (h.inj hq (he ▸ hp))⟩
    · exact ⟨.inr hx, fun he => h.ne hp (he ▸ hx)⟩
  · rintro ⟨⟨q, hq⟩ | hx, hne⟩
    · have hqp : q ≠ p := by
        rintro rfl
        exact hne (Option.some.inj (hq.symm.trans hp))
      exact .inl ⟨q, by rwa [Function.update_of_ne hqp]⟩
    · exact .inr hx

theorem holdings_give (hp : g p = none) : holdings (Function.update g p (some r)) Z = insert r (holdings g Z) := by
  ext x
  simp only [holdings, Set.mem_ofPred_eq, Set.mem_insert_iff]
  constructor
  · rintro (⟨q, hq⟩ | hx)
    · by_cases hqp : q = p
      · subst hqp
        simp only [Function.update_self, Option.some.injEq] at hq
        exact .inl hq.symm
      · rw [Function.update_of_ne hqp] at hq
        exact .inr (.inl ⟨q, hq⟩)
    · exact .inr (.inr hx)
  · rintro (rfl | ⟨q, hq⟩ | hx)
    · exact .inl ⟨p, Function.update_self ..⟩
    · have hqp : q ≠ p := by
        rintro rfl
        simp [hp] at hq
      exact .inl ⟨q, by rwa [Function.update_of_ne hqp]⟩
    · exact .inr hx

omit [DecidableEq P] in
/-- What is held elsewhere becomes less, or new. -/
theorem Apart.elsewhere (h : Apart g Z) (hZ : ∀ r ∈ Z', r ∈ Z ∨ r ∉ holdings g Z) : Apart g Z' :=
  ⟨h.inj, fun hp hr => (hZ _ hr).elim (h.ne hp) fun hn => hn (mem_holdings hp)⟩

theorem Apart.clear (h : Apart g Z) (p : P) : Apart (Function.update g p none) Z := by
  have hold : ∀ {q r}, Function.update g p none q = some r → g q = some r := by
    intro q r hq
    by_cases hqp : q = p
    · subst hqp
      simp at hq
    · rwa [Function.update_of_ne hqp] at hq
  exact ⟨fun h1 h2 => h.inj (hold h1) (hold h2), fun h1 => h.ne (hold h1)⟩

theorem Apart.give (h : Apart g Z) (hr : r ∉ holdings g Z) (p : P) : Apart (Function.update g p (some r)) Z := by
  have hold : ∀ {q x}, Function.update g p (some r) q = some x → (q = p ∧ x = r) ∨ (q ≠ p ∧ g q = some x) := by
    intro q x hq
    by_cases hqp : q = p
    · subst hqp
      simp only [Function.update_self, Option.some.injEq] at hq
      exact .inl ⟨rfl, hq.symm⟩
    · rw [Function.update_of_ne hqp] at hq
      exact .inr ⟨hqp, hq⟩
  refine ⟨fun h1 h2 => ?_, fun h1 => ?_⟩
  · rcases hold h1 with ⟨rfl, rfl⟩ | ⟨-, g1⟩ <;> rcases hold h2 with ⟨rfl, hx⟩ | ⟨-, g2⟩
    · rfl
    · exact absurd (mem_holdings g2) hr
    · rw [hx] at g1
      exact absurd (mem_holdings g1) hr
    · exact h.inj g1 g2
  · rcases hold h1 with ⟨-, rfl⟩ | ⟨-, h1⟩
    · exact fun hz => hr (.inr hz)
    · exact h.ne h1

omit [DecidableEq P] in
/-- A list and a family of sets, apart from each other, that make up a set. -/
theorem card_parts [Fintype P] {A : Set R} {l : List R} {B : P → Set R} (hA : A.Finite) (hl : l.Nodup)
    (hcover : ∀ a, a ∈ A ↔ a ∈ l ∨ ∃ p, a ∈ B p) (hlist : ∀ a ∈ l, ∀ p, a ∉ B p)
    (hpair : ∀ a p q, a ∈ B p → a ∈ B q → p = q) : l.length + ∑ p, (B p).ncard = A.ncard := by
  classical
  have hfin : ∀ p, (B p).Finite := fun p => hA.subset fun a ha => (hcover a).mpr (.inr ⟨p, ha⟩)
  have hset : hA.toFinset = l.toFinset ∪ Finset.univ.biUnion fun p => (hfin p).toFinset := by
    ext a
    simp only [Set.Finite.mem_toFinset, Finset.mem_union, List.mem_toFinset, Finset.mem_biUnion, Finset.mem_univ, true_and]
    exact hcover a
  have hdisj : Disjoint l.toFinset (Finset.univ.biUnion fun p => (hfin p).toFinset) := by
    refine Finset.disjoint_left.mpr fun a ha hb => ?_
    simp only [Set.Finite.mem_toFinset, List.mem_toFinset, Finset.mem_biUnion, Finset.mem_univ, true_and] at ha hb
    obtain ⟨p, hp⟩ := hb
    exact hlist a ha p hp
  have hparts : (Finset.univ.biUnion fun p => (hfin p).toFinset).card = ∑ p, (B p).ncard := by
    rw [Finset.card_biUnion]
    · exact Finset.sum_congr rfl fun p _ => (Set.ncard_eq_toFinset_card _ (hfin p)).symm
    · intro p _ q _ hpq
      refine Finset.disjoint_left.mpr fun a ha hb => hpq (hpair a p q ?_ ?_)
      · exact (hfin p).mem_toFinset.mp ha
      · exact (hfin q).mem_toFinset.mp hb
  rw [Set.ncard_eq_toFinset_card _ hA, hset, Finset.card_union_of_disjoint hdisj, List.toFinset_card_of_nodup hl, hparts]

end Holders
