import Xv6.Spec.Dir
import Mathlib.Data.List.DropRight

/-! Names and paths. Two names compare equal exactly if `strncpy` stores them as the
same bytes, so the stored form stands for the name. Path resolution goes through the
elements of the path one after the other. -/

namespace Xv6.Fs

/-- A name as it is stored in a directory entry. -/
def stored (name : List UInt8) : List UInt8 := strncpy DIRSIZ name

@[simp] theorem strncpy_length (n : ℕ) (t : List UInt8) : (strncpy n t).length = n := by
  induction n generalizing t with
  | zero => rfl
  | succ n ih =>
    rw [strncpy]
    split_ifs
    · simp
    · simp [ih]

theorem toNat_sub_eq_zero {a b : UInt8} : (a.toNat : ℤ) - b.toNat = 0 ↔ a = b := by
  rw [sub_eq_zero, Nat.cast_inj, UInt8.toNat_inj]

theorem strncmp_eq_zero_iff (n : ℕ) (p q : List UInt8) : strncmp n p q = 0 ↔ strncpy n p = strncpy n q := by
  induction n generalizing p q with
  | zero => simp [strncmp, strncpy]
  | succ n ih =>
    rw [strncmp, strncpy, strncpy]
    by_cases hp : p.headD 0 = 0
    · rw [if_neg (fun h => h.1 hp), if_pos hp, toNat_sub_eq_zero, hp]
      constructor
      · intro hq
        rw [if_pos hq.symm]
      · intro h
        by_contra hq
        rw [if_neg (Ne.symm hq), List.replicate_succ, List.cons.injEq] at h
        exact hq h.1
    · rw [if_neg hp]
      by_cases hpq : p.headD 0 = q.headD 0
      · have hq : q.headD 0 ≠ 0 := hpq ▸ hp
        rw [if_pos ⟨hp, hpq⟩, if_neg hq, ih, hpq, List.cons.injEq, eq_self, true_and]
      · rw [if_neg (fun h => hpq h.2), toNat_sub_eq_zero]
        refine ⟨fun h => absurd h hpq, fun h => ?_⟩
        by_cases hq : q.headD 0 = 0
        · rw [if_pos hq, List.replicate_succ, List.cons.injEq] at h
          exact absurd h.1 hp
        · rw [if_neg hq, List.cons.injEq] at h
          exact h.1

theorem namecmp_eq_zero_iff (s t : List UInt8) : namecmp s t = 0 ↔ stored s = stored t := strncmp_eq_zero_iff _ _ _

/-- Storing a stored name changes nothing. -/
theorem stored_stored (name : List UInt8) : stored (stored name) = stored name := by
  have h : ∀ n t, strncpy n (strncpy n t) = strncpy n t := by
    intro n
    induction n with
    | zero => intro t; rfl
    | succ n ih =>
      intro t
      by_cases ht : t.headD 0 = 0
      · have hz : strncpy (n + 1) t = List.replicate (n + 1) 0 := by rw [strncpy, if_pos ht]
        rw [hz, strncpy, if_pos (by rfl)]
      · have hc : strncpy (n + 1) t = t.headD 0 :: strncpy n t.tail := by rw [strncpy, if_neg ht]
        rw [hc, strncpy, if_neg (by simpa using ht)]
        simp [ih]
  exact h DIRSIZ name

section Elems

/-- The elements of a path. -/
def elemsFrom : ℕ → List UInt8 → List (List UInt8)
  | 0, _ => []
  | n + 1, path =>
    match skipelem path with
    | none => []
    | some (name, rest) => name :: elemsFrom n rest

def elems (path : List UInt8) : List (List UInt8) := elemsFrom (path.length + 1) path

theorem skipelem_length {path name rest : List UInt8} (h : skipelem path = some (name, rest)) :
    rest.length < path.length := by
  unfold skipelem at h
  simp only at h
  split_ifs at h with hnil
  obtain ⟨-, rfl⟩ := Prod.mk.inj (Option.some.inj h)
  set p := path.dropWhile (· == slash) with hp
  have hle : p.length ≤ path.length := (List.dropWhile_sublist _).length_le
  have hle2 : ((p.dropWhile (· != slash)).dropWhile (· == slash)).length ≤ (p.dropWhile (· != slash)).length :=
    (List.dropWhile_sublist _).length_le
  have hlt : (p.dropWhile (· != slash)).length < p.length := by
    cases hc : p with
    | nil => exact absurd hc hnil
    | cons a l =>
      have hhead : a ≠ slash := by
        have := List.head?_dropWhile_not (· == slash) path
        rw [← hp, hc] at this
        simpa using this
      rw [List.dropWhile_cons_of_pos (by simpa using hhead)]
      exact Nat.lt_succ_of_le (List.dropWhile_sublist _).length_le
  omega

theorem skipelem_nil : skipelem [] = none := rfl

/-- The path that is left starts with an element or is empty. -/
theorem skipelem_rest {path name rest : List UInt8} (h : skipelem path = some (name, rest)) :
    rest = [] ↔ skipelem rest = none := by
  constructor
  · rintro rfl
    rfl
  · intro hr
    unfold skipelem at h hr
    simp only at h hr
    split_ifs at h hr with h1 h2
    obtain ⟨-, rfl⟩ := Prod.mk.inj (Option.some.inj h)
    rwa [List.dropWhile_idempotent] at h2

theorem elemsFrom_none {n : ℕ} {path : List UInt8} (h : skipelem path = none) : elemsFrom n path = [] := by
  cases n with
  | zero => rfl
  | succ n => rw [elemsFrom, h]

theorem elemsFrom_some {n : ℕ} {path name rest : List UInt8} (h : skipelem path = some (name, rest)) :
    elemsFrom (n + 1) path = name :: elemsFrom n rest := by
  rw [elemsFrom, h]

theorem elemsFrom_rest {n : ℕ} {path name rest : List UInt8} (h : skipelem path = some (name, rest)) (hne : rest ≠ []) :
    elemsFrom (n + 1) rest ≠ [] := by
  cases hr : skipelem rest with
  | none => exact absurd ((skipelem_rest h).mpr hr) hne
  | some r =>
    rw [elemsFrom_some (show skipelem rest = some (r.1, r.2) from hr)]
    exact List.cons_ne_nil _ _

/-- Applying `skipelem` to what it leaves until there is nothing left yields the names `es`. -/
inductive Skips : List UInt8 → List (List UInt8) → Prop where
  | done {path} (h : skipelem path = none) : Skips path []
  | more {path name rest es} (h : skipelem path = some (name, rest)) (hrest : Skips rest es) : Skips path (name :: es)

end Elems

end Xv6.Fs
