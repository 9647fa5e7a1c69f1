import Mathlib.Tactic

/-! Resources, marks and owners. A slot holds at most one resource of an area; a
resource is marked exactly if one slot holds it or it is pending, that is, taken
by somebody who has not stored it in a slot yet. -/

namespace Ownership

set_option linter.unusedSectionVars false

variable {S R : Type} [DecidableEq S] [DecidableEq R]

structure Owned (val : S → Option R) (marked : R → Bool) (area pend : Set R) : Prop where
  inj : ∀ {x y b}, val x = some b → val y = some b → x = y
  owned : ∀ {x b}, val x = some b → b ∈ area ∧ marked b = true ∧ b ∉ pend
  cover : ∀ {b}, b ∈ area → marked b = true → b ∈ pend ∨ ∃ x, val x = some b
  pending : ∀ {b}, b ∈ pend → b ∈ area ∧ marked b = true

variable {val : S → Option R} {marked : R → Bool} {area pend : Set R} {x : S} {b : R}

/-- With nothing pending, a resource of the area is marked iff exactly one slot holds it. -/
theorem Owned.marked_iff (h : Owned val marked area ∅) (hb : b ∈ area) :
    marked b = true ↔ ∃! x, val x = some b := by
  constructor
  · intro hm
    obtain ⟨x, hx⟩ := (h.cover hb hm).resolve_left (Set.notMem_empty b)
    exact ⟨x, hx, fun y hy => h.inj hy hx⟩
  · rintro ⟨x, hx, -⟩
    exact (h.owned hx).2.1

section Steps

variable (h : Owned val marked area pend)

include h

theorem Owned.congr {val' : S → Option R} {marked' : R → Bool}
    (hval : ∀ x, val' x = val x) (hm : ∀ b ∈ area, marked' b = marked b) : Owned val' marked' area pend := by
  obtain rfl : val' = val := funext hval
  exact {
    inj := h.inj
    owned := fun {x b} hx => by
      obtain ⟨ha, hmb, hp⟩ := h.owned hx
      exact ⟨ha, (hm b ha).trans hmb, hp⟩
    cover := fun {b} hb hmb => h.cover hb ((hm b hb).symm.trans hmb)
    pending := fun {b} hb => ⟨(h.pending hb).1, (hm b (h.pending hb).1).trans (h.pending hb).2⟩ }

theorem Owned.alloc (hb : b ∈ area) (hfree : marked b = false) :
    Owned val (Function.update marked b true) area (insert b pend) where
  inj := h.inj
  owned := fun {x c} hx => by
    obtain ⟨ha, hm, hp⟩ := h.owned hx
    have hcb : c ≠ b := by
      rintro rfl
      simp [hfree] at hm
    refine ⟨ha, by rw [Function.update_of_ne hcb]; exact hm, ?_⟩
    rintro (rfl | hin)
    · exact hcb rfl
    · exact hp hin
  cover := fun {c} hc hm => by
    by_cases hcb : c = b
    · exact Or.inl (Or.inl hcb)
    · rw [Function.update_of_ne hcb] at hm
      exact (h.cover hc hm).imp Or.inr id
  pending := by
    rintro c (rfl | hc)
    · exact ⟨hb, Function.update_self _ _ _⟩
    · obtain ⟨ha, hm⟩ := h.pending hc
      refine ⟨ha, ?_⟩
      by_cases hcb : c = b
      · rw [hcb, Function.update_self]
      · rw [Function.update_of_ne hcb]
        exact hm

theorem Owned.attach (hb : b ∈ pend) (hx : val x = none) :
    Owned (Function.update val x (some b)) marked area (pend \ {b}) where
  inj := fun {y z c} hy hz => by
    by_cases hyx : y = x <;> by_cases hzx : z = x
    · rw [hyx, hzx]
    · rw [hyx, Function.update_self] at hy
      rw [Function.update_of_ne hzx] at hz
      exact absurd (Option.some.inj hy ▸ hb) (h.owned hz).2.2
    · rw [Function.update_of_ne hyx] at hy
      rw [hzx, Function.update_self] at hz
      exact absurd (Option.some.inj hz ▸ hb) (h.owned hy).2.2
    · rw [Function.update_of_ne hyx] at hy
      rw [Function.update_of_ne hzx] at hz
      exact h.inj hy hz
  owned := fun {y c} hy => by
    by_cases hyx : y = x
    · rw [hyx, Function.update_self] at hy
      obtain rfl := Option.some.inj hy
      exact ⟨(h.pending hb).1, (h.pending hb).2, fun hc => hc.2 rfl⟩
    · rw [Function.update_of_ne hyx] at hy
      obtain ⟨ha, hm, hp⟩ := h.owned hy
      exact ⟨ha, hm, fun hc => hp hc.1⟩
  cover := fun {c} hc hm => by
    rcases h.cover hc hm with hp | ⟨y, hy⟩
    · by_cases hcb : c = b
      · exact Or.inr ⟨x, by rw [hcb, Function.update_self]⟩
      · exact Or.inl ⟨hp, hcb⟩
    · have hyx : y ≠ x := by
        rintro rfl
        rw [hx] at hy
        cases hy
      exact Or.inr ⟨y, by rw [Function.update_of_ne hyx]; exact hy⟩
  pending := fun hc => h.pending hc.1

theorem Owned.free (hx : val x = some b) :
    Owned (Function.update val x none) (Function.update marked b false) area pend where
  inj := fun {y z c} hy hz => by
    have hyx : y ≠ x := by
      rintro rfl
      simp at hy
    have hzx : z ≠ x := by
      rintro rfl
      simp at hz
    rw [Function.update_of_ne hyx] at hy
    rw [Function.update_of_ne hzx] at hz
    exact h.inj hy hz
  owned := fun {y c} hy => by
    have hyx : y ≠ x := by
      rintro rfl
      simp at hy
    rw [Function.update_of_ne hyx] at hy
    have hcb : c ≠ b := by
      rintro rfl
      exact hyx (h.inj hy hx)
    rw [Function.update_of_ne hcb]
    exact h.owned hy
  cover := fun {c} hc hm => by
    have hcb : c ≠ b := by
      rintro rfl
      simp at hm
    rw [Function.update_of_ne hcb] at hm
    refine (h.cover hc hm).imp id ?_
    rintro ⟨y, hy⟩
    have hyx : y ≠ x := by
      rintro rfl
      exact hcb (Option.some.inj (hy.symm.trans hx))
    exact ⟨y, by rw [Function.update_of_ne hyx]; exact hy⟩
  pending := fun {c} hc => by
    have hcb : c ≠ b := by
      rintro rfl
      exact (h.owned hx).2.2 hc
    rw [Function.update_of_ne hcb]
    exact h.pending hc

/-- The resource of a slot is taken out of it. -/
theorem Owned.detach (hx : val x = some b) :
    Owned (Function.update val x none) marked area (insert b pend) where
  inj := fun {y z c} hy hz => by
    have hyx : y ≠ x := by
      rintro rfl
      simp at hy
    have hzx : z ≠ x := by
      rintro rfl
      simp at hz
    rw [Function.update_of_ne hyx] at hy
    rw [Function.update_of_ne hzx] at hz
    exact h.inj hy hz
  owned := fun {y c} hy => by
    have hyx : y ≠ x := by
      rintro rfl
      simp at hy
    rw [Function.update_of_ne hyx] at hy
    obtain ⟨ha, hm, hp⟩ := h.owned hy
    refine ⟨ha, hm, ?_⟩
    rintro (rfl | hin)
    · exact hyx (h.inj hy hx)
    · exact hp hin
  cover := fun {c} hc hm => by
    rcases h.cover hc hm with hp | ⟨y, hy⟩
    · exact Or.inl (Or.inr hp)
    · by_cases hyx : y = x
      · subst hyx
        exact Or.inl (Or.inl (Option.some.inj (hy.symm.trans hx)))
      · exact Or.inr ⟨y, by rwa [Function.update_of_ne hyx]⟩
  pending := by
    rintro c (rfl | hc)
    · exact ⟨(h.owned hx).1, (h.owned hx).2.1⟩
    · exact h.pending hc

/-- A pending resource is given back. -/
theorem Owned.release (hb : b ∈ pend) :
    Owned val (Function.update marked b false) area (pend \ {b}) where
  inj := h.inj
  owned := fun {y c} hy => by
    obtain ⟨ha, hm, hp⟩ := h.owned hy
    have hcb : c ≠ b := by
      rintro rfl
      exact hp hb
    exact ⟨ha, by rwa [Function.update_of_ne hcb], fun hin => hp hin.1⟩
  cover := fun {c} hc hm => by
    have hcb : c ≠ b := by
      rintro rfl
      simp at hm
    rw [Function.update_of_ne hcb] at hm
    exact (h.cover hc hm).imp (fun hp => ⟨hp, hcb⟩) id
  pending := fun {c} hc => by
    rw [Function.update_of_ne hc.2]
    exact h.pending hc.1

/-- Some of the slots are forgotten; what they held is pending. -/
theorem Owned.abandon {val' : S → Option R}
    (hval : ∀ x, val' x = val x ∨ val' x = none) :
    Owned val' marked area (pend ∪ {b | ∃ x, val x = some b ∧ val' x = none}) := by
  have hold : ∀ {x c}, val' x = some c → val x = some c := by
    intro x c hx
    rcases hval x with he | he
    · rwa [← he]
    · rw [he] at hx
      cases hx
  refine ⟨fun hx hy => h.inj (hold hx) (hold hy), fun {x c} hx => ?_, fun {c} hc hm => ?_, ?_⟩
  · obtain ⟨ha, hm, hp⟩ := h.owned (hold hx)
    refine ⟨ha, hm, ?_⟩
    rintro (hin | ⟨y, hy, hn⟩)
    · exact hp hin
    · rw [h.inj hy (hold hx), hx] at hn
      cases hn
  · rcases h.cover hc hm with hp | ⟨x, hx⟩
    · exact Or.inl (Or.inl hp)
    · rcases hval x with he | he
      · exact Or.inr ⟨x, he.trans hx⟩
      · exact Or.inl (Or.inr ⟨x, hx, he⟩)
  · rintro c (hc | ⟨x, hx, -⟩)
    · exact h.pending hc
    · exact ⟨(h.owned hx).1, (h.owned hx).2.1⟩

end Steps

end Ownership
