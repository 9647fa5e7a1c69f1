import Mathlib.Tactic

/-! Copying in place, one cell after the other: where no cell is written before it is read, this is the copy of all the cells
at once. -/

namespace Copy

variable {A V ι κ : Type*} [DecidableEq A] {dst src : ι → A} {is : List ι} {m : A → V}

/-- The cell `src i` is copied to `dst i`, for each `i` in turn. -/
def run (dst src : ι → A) : List ι → (A → V) → A → V
  | [], m => m
  | i :: is, m => run dst src is (Function.update m (dst i) (m (src i)))

theorem run_map (f : κ → ι) (is : List κ) : run dst src (is.map f) m = run (dst ∘ f) (src ∘ f) is m := by
  induction is generalizing m with
  | nil => rfl
  | cons i is ih => exact ih

theorem run_outside {a : A} (ha : ∀ i ∈ is, a ≠ dst i) : run dst src is m a = m a := by
  induction is generalizing m with
  | nil => rfl
  | cons i is ih =>
    obtain ⟨hi, hrest⟩ := List.forall_mem_cons.mp ha
    rw [run, ih hrest, Function.update_of_ne hi]

/-- What is written in one turn is neither overwritten nor read in a later one. -/
theorem run_inside (h : is.Pairwise fun i j => dst i ≠ dst j ∧ dst i ≠ src j) {i : ι} (hi : i ∈ is) :
    run dst src is m (dst i) = m (src i) := by
  induction is generalizing m with
  | nil => cases hi
  | cons k is ih =>
    obtain ⟨hk, hrest⟩ := List.pairwise_cons.mp h
    rw [run]
    rcases List.mem_cons.mp hi with rfl | hi
    · rw [run_outside fun j hj => (hk j hj).1, Function.update_self]
    · rw [ih hrest hi, Function.update_of_ne (hk i hi).2.symm]

end Copy
