import Mathlib.Tactic

/-! Blocks of memory that are made of units of `w` bytes. A block is its address and its number of units. That two lists of
blocks have the same units, in whatever order, says that the one is the other cut in another way. -/

namespace Blocks

variable {w : ℕ} {x y : ℕ × ℕ} {bs rs : List (ℕ × ℕ)} {lo hi : ℕ}

/-- The addresses of the units of a block. -/
def units (w : ℕ) (x : ℕ × ℕ) : List ℕ := (List.range x.2).map fun i => x.1 + i * w

def blockEnd (w : ℕ) (x : ℕ × ℕ) : ℕ := x.1 + x.2 * w

/-- `x` ends before `y` starts, or where it does. -/
def Before (w : ℕ) (x y : ℕ × ℕ) : Prop := blockEnd w x ≤ y.1

/-- Blocks that do not overlap. -/
def Off (w : ℕ) (x y : ℕ × ℕ) : Prop := Before w x y ∨ Before w y x

def Far (w u v : ℕ) : Prop := u + w ≤ v ∨ v + w ≤ u

theorem Far.symm {u v : ℕ} (h : Far w u v) : Far w v u := Or.symm h

theorem Off.symm (h : Off w x y) : Off w y x := Or.symm h

instance : Std.Symm (Off w) := ⟨fun _ _ => Off.symm⟩

theorem mem_units {u : ℕ} : u ∈ units w x ↔ ∃ i < x.2, x.1 + i * w = u := by
  simp only [units, List.mem_map, List.mem_range]

theorem length_units (w : ℕ) (x : ℕ × ℕ) : (units w x).length = x.2 := by
  rw [units, List.length_map, List.length_range]

/-- A block is the units of its two parts. -/
theorem units_add (w a m n : ℕ) : units w (a, m + n) = units w (a, m) ++ units w (a + m * w, n) := by
  simp only [units, List.range_add, List.map_append, List.map_map, Function.comp_def]
  refine congrArg _ (List.map_congr_left fun i _ => ?_)
  rw [Nat.add_mul, Nat.add_assoc]

theorem units_far (w : ℕ) (x : ℕ × ℕ) : (units w x).Pairwise (Far w) := by
  rw [units, List.pairwise_map]
  refine List.pairwise_lt_range.imp fun {i j} hij => .inl ?_
  have := Nat.mul_le_mul_right w (Nat.succ_le_of_lt hij)
  rw [Nat.succ_mul] at this
  omega

/-- Blocks one after the other have their units apart. -/
theorem far_of_before (hbefore : Before w x y) {u v : ℕ} (hu : u ∈ units w x) (hv : v ∈ units w y) : u + w ≤ v := by
  obtain ⟨i, hi, rfl⟩ := mem_units.mp hu
  obtain ⟨j, hj, rfl⟩ := mem_units.mp hv
  have := Nat.mul_le_mul_right w (Nat.succ_le_of_lt hi)
  rw [Nat.succ_mul] at this
  rw [Before, blockEnd] at hbefore
  omega

theorem off_of_far (hw : 0 < w) (hx : 0 < x.2) (hy : 0 < y.2) (h : ∀ u ∈ units w x, ∀ v ∈ units w y, Far w u v) : Off w x y := by
  -- the unit of the one block in which the other starts
  have hstep : ∀ {x y : ℕ × ℕ}, 0 < y.2 → x.1 ≤ y.1 → (∀ u ∈ units w x, ∀ v ∈ units w y, Far w u v) → Before w x y := by
    intro x y hy hle h
    by_contra hnot
    rw [Before, blockEnd, Nat.not_le] at hnot
    have hi : (y.1 - x.1) / w < x.2 := Nat.div_lt_of_lt_mul (by rw [Nat.mul_comm]; omega)
    have hfar := h _ (mem_units.mpr ⟨_, hi, rfl⟩) y.1 (mem_units.mpr ⟨0, hy, by rw [Nat.zero_mul, Nat.add_zero]⟩)
    have hdiv := Nat.div_add_mod' (y.1 - x.1) w
    have hmod := Nat.mod_lt (y.1 - x.1) hw
    rcases hfar with hfar | hfar <;> omega
  rcases Nat.le_total x.1 y.1 with hle | hle
  · exact .inl (hstep hy hle h)
  · exact .inr (hstep hx hle fun u hu v hv => (h v hv u hu).symm)

section Cut

variable (hw : 0 < w) (hcut : (bs.flatMap (units w)).Perm (rs.flatMap (units w)))

include hcut in
theorem sum_of_cut : (bs.map Prod.snd).sum = (rs.map Prod.snd).sum := by
  have hlen := hcut.length_eq
  simp only [List.length_flatMap, length_units] at hlen
  exact hlen

include hw hcut in
/-- The blocks that regions are cut into do not overlap. -/
theorem pairwise_off (hrs : rs.Pairwise (Before w)) (hbs : ∀ x ∈ bs, 0 < x.2) : bs.Pairwise (Off w) := by
  have hfar : (rs.flatMap (units w)).Pairwise (Far w) := by
    refine List.pairwise_flatMap.mpr ⟨fun x _ => units_far w x, hrs.imp fun {x y} hb u hu v hv => ?_⟩
    exact .inl (far_of_before hb hu hv)
  obtain ⟨-, hpair⟩ := List.pairwise_flatMap.mp ((hcut.pairwise_iff Far.symm).mpr hfar)
  exact hpair.imp_of_mem fun {x y} hx hy h => off_of_far hw (hbs x hx) (hbs y hy) h

include hcut in
/-- They lie where the regions lie. -/
theorem within (hrs : ∀ r ∈ rs, lo ≤ r.1 ∧ blockEnd w r ≤ hi) (hx : x ∈ bs) (hpos : 0 < x.2) : lo ≤ x.1 ∧ blockEnd w x ≤ hi := by
  have hunit : ∀ i < x.2, lo ≤ x.1 + i * w ∧ x.1 + i * w + w ≤ hi := by
    intro i hi'
    have hin : x.1 + i * w ∈ rs.flatMap (units w) :=
      hcut.mem_iff.mp (List.mem_flatMap.mpr ⟨x, hx, mem_units.mpr ⟨i, hi', rfl⟩⟩)
    obtain ⟨r, hr, hu⟩ := List.mem_flatMap.mp hin
    obtain ⟨j, hj, he⟩ := mem_units.mp hu
    have hb := hrs r hr
    have hmul := Nat.mul_le_mul_right w (Nat.succ_le_of_lt hj)
    rw [Nat.succ_mul] at hmul
    rw [blockEnd] at hb
    omega
  refine ⟨?_, ?_⟩
  · have := (hunit 0 hpos).1
    omega
  · obtain ⟨n, hn⟩ := Nat.exists_eq_succ_of_ne_zero hpos.ne'
    have := (hunit n (by omega)).2
    rw [blockEnd, hn, Nat.succ_mul]
    omega

end Cut

end Blocks
