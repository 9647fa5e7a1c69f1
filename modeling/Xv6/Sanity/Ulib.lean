import Xv6.Spec.Ulib

/-! What the byte functions leave in memory. -/

namespace Xv6.Ulib

@[simp] theorem ok_bind {α β : Type} {a : α} {f : α → Except Stop β} : (Except.ok a >>= f) = f a := rfl

section Memmove

variable {mem mem' : List UInt8} {dst src n : ℕ}

/-- `mem'` is `mem` with the `n` bytes from `src` at `dst`. -/
structure Moved (mem mem' : List UInt8) (dst src n : ℕ) : Prop where
  length : mem'.length = mem.length
  get : ∀ i, mem'[i]? = if dst ≤ i ∧ i < dst + n then mem[src + (i - dst)]? else mem[i]?

theorem load_eq {i : ℕ} {c : UInt8} (h : mem[i]? = some c) : load mem i = .ok c := by rw [load, h]

theorem store_eq {i : ℕ} {c : UInt8} (hi : i < mem.length) : store mem i c = .ok (mem.set i c) := if_pos hi

/-- Forwards, a byte is read before it is overwritten where the destination is below. -/
theorem copyUp_moved (hle : dst ≤ src) (hs : src + n ≤ mem.length) :
    ∃ mem', copyUp n dst src mem = .ok mem' ∧ Moved mem mem' dst src n := by
  induction n generalizing dst src mem with
  | zero => exact ⟨mem, rfl, rfl, fun i => by rw [if_neg (by omega)]⟩
  | succ n ih =>
    obtain ⟨c, hc⟩ : ∃ c, mem[src]? = some c := ⟨_, List.getElem?_eq_getElem (by omega)⟩
    rw [copyUp, load_eq hc, ok_bind, store_eq (by omega), ok_bind]
    obtain ⟨mem', hrun, hlen, hget⟩ := @ih (mem.set dst c) (dst + 1) (src + 1) (by omega) (by rw [List.length_set]; omega)
    refine ⟨mem', hrun, by rw [hlen, List.length_set], fun i => ?_⟩
    rw [hget]
    rcases lt_trichotomy i dst with hi | rfl | hi
    · rw [if_neg (by omega), if_neg (by omega), List.getElem?_set_ne (by omega)]
    · rw [if_neg (by omega), if_pos (by omega), List.getElem?_set_self (by omega), Nat.sub_self, Nat.add_zero, hc]
    · rw [List.getElem?_set_ne (by omega), List.getElem?_set_ne (by omega),
        show src + 1 + (i - (dst + 1)) = src + (i - dst) by omega]
      exact if_congr (by omega) rfl rfl

/-- Backwards, where it is above. -/
theorem copyDown_moved (hle : src ≤ dst) (hd : dst + n ≤ mem.length) :
    ∃ mem', copyDown dst src n mem = .ok mem' ∧ Moved mem mem' dst src n := by
  induction n generalizing mem with
  | zero => exact ⟨mem, rfl, rfl, fun i => by rw [if_neg (by omega)]⟩
  | succ n ih =>
    obtain ⟨c, hc⟩ : ∃ c, mem[src + n]? = some c := ⟨_, List.getElem?_eq_getElem (by omega)⟩
    rw [copyDown, load_eq hc, ok_bind, store_eq (by omega), ok_bind]
    obtain ⟨mem', hrun, hlen, hget⟩ := @ih (mem.set (dst + n) c) (by rw [List.length_set]; omega)
    refine ⟨mem', hrun, by rw [hlen, List.length_set], fun i => ?_⟩
    rw [hget]
    rcases eq_or_ne i (dst + n) with rfl | hi
    · rw [if_neg (by omega), if_pos (by omega), List.getElem?_set_self (by omega), Nat.add_sub_cancel_left, hc]
    · by_cases hin : dst ≤ i ∧ i < dst + n
      · rw [if_pos hin, if_pos (by omega), List.getElem?_set_ne (by omega)]
      · rw [if_neg hin, if_neg (by omega), List.getElem?_set_ne (by omega)]

theorem memmove_moved (hd : dst + n ≤ mem.length) (hs : src + n ≤ mem.length) :
    ∃ mem', memmove dst src n mem = .ok mem' ∧ Moved mem mem' dst src n := by
  rw [memmove]
  split_ifs with h
  · exact copyUp_moved (by omega) hs
  · exact copyDown_moved (by omega) hd

end Memmove

end Xv6.Ulib
