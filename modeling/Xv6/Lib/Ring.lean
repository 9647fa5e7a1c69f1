import Mathlib.Tactic

/-! Ring buffers whose counters run freely and wrap around: a counter of `w` bits is taken modulo
the size of the ring only when a slot is accessed. As long as the size divides `2 ^ w`, such a
ring is a queue. -/

namespace Ring

variable {α : Type*} {w N : ℕ}

/-- The slots from counter `head` on hold the list `q`, and `tail` is the counter after it. -/
structure Holds (N : ℕ) (slots : ℕ → α) (head tail : BitVec w) (q : List α) : Prop where
  length_le : q.length ≤ N
  tail_eq : tail = head + BitVec.ofNat w q.length
  slot : ∀ j (h : j < q.length), slots ((head + BitVec.ofNat w j).toNat % N) = q[j]

/-- Wrapping around does not disturb the slots. -/
theorem index_add (hN : N ∣ 2 ^ w) (c : BitVec w) (j : ℕ) : (c + BitVec.ofNat w j).toNat % N = (c.toNat + j) % N := by
  rw [BitVec.toNat_add, BitVec.toNat_ofNat, Nat.add_mod_mod, Nat.mod_mod_of_dvd _ hN]

theorem index_ne {a i j : ℕ} (hij : i < j) (hj : j < i + N) : (a + i) % N ≠ (a + j) % N := fun h => by
  have hdvd : N ∣ (a + j) - (a + i) := (Nat.modEq_iff_dvd' (by omega)).mp h
  have hle := Nat.le_of_dvd (by omega) hdvd
  omega

variable {slots : ℕ → α} {head tail : BitVec w} {q : List α} {a : α}

theorem Holds.nil (slots : ℕ → α) (head : BitVec w) : Holds N slots head head [] :=
  ⟨Nat.zero_le _, by simp, fun _ h => absurd h (Nat.not_lt_zero _)⟩

/-- As long as there is room, the slot at `tail` is free to be written. -/
theorem Holds.write (hN : N ∣ 2 ^ w) (h : Holds N slots head tail q) (hroom : q.length < N) :
    Holds N (Function.update slots (tail.toNat % N) a) head tail q := by
  have htail : tail.toNat % N = (head.toNat + q.length) % N := by rw [h.tail_eq, index_add hN]
  refine ⟨h.length_le, h.tail_eq, fun j hj => ?_⟩
  rw [index_add hN, htail, Function.update_of_ne (index_ne hj (by omega)), ← index_add hN, h.slot j hj]

/-- Moving `tail` on adds what the slot there holds. -/
theorem Holds.advance (h : Holds N slots head tail q) (hroom : q.length < N) (ha : slots (tail.toNat % N) = a) :
    Holds N slots head (tail + 1) (q ++ [a]) := by
  have hlen : (q ++ [a]).length = q.length + 1 := by simp
  refine ⟨by omega, ?_, fun j hj => ?_⟩
  · rw [hlen, h.tail_eq, BitVec.ofNat_add, BitVec.add_assoc]
    rfl
  · rcases Nat.lt_succ_iff_lt_or_eq.mp (hlen ▸ hj) with hlt | rfl
    · rw [h.slot j hlt, List.getElem_append_left hlt]
    · rw [← h.tail_eq, ha, List.getElem_concat_length rfl]

theorem Holds.push (hN : N ∣ 2 ^ w) (h : Holds N slots head tail q) (hroom : q.length < N) :
    Holds N (Function.update slots (tail.toNat % N) a) head (tail + 1) (q ++ [a]) :=
  (h.write hN hroom).advance hroom (Function.update_self ..)

/-- Moving `tail` back takes the last element away again. -/
theorem Holds.unpush (h : Holds N slots head tail (q ++ [a])) :
    slots ((tail - 1).toNat % N) = a ∧ Holds N slots head (tail - 1) q := by
  have hlen : (q ++ [a]).length = q.length + 1 := by simp
  have hlast : tail - 1 = head + BitVec.ofNat w q.length := by
    rw [h.tail_eq, hlen, BitVec.ofNat_add, ← BitVec.add_assoc]
    exact BitVec.add_sub_cancel _ _
  refine ⟨?_, ?_, hlast, fun j hj => ?_⟩
  · have hslot := h.slot q.length (by omega)
    rw [List.getElem_concat_length rfl] at hslot
    rw [hlast, hslot]
  · have := h.length_le
    omega
  · rw [h.slot j (by omega), List.getElem_append_left hj]

theorem Holds.pop (h : Holds N slots head tail (a :: q)) :
    slots (head.toNat % N) = a ∧ Holds N slots (head + 1) tail q := by
  refine ⟨by simpa using h.slot 0 (Nat.succ_pos _), (Nat.le_succ _).trans h.length_le, ?_, fun j hj => ?_⟩
  · rw [h.tail_eq, List.length_cons, Nat.add_comm, BitVec.ofNat_add, ← BitVec.add_assoc]
    rfl
  · have hnext : head + 1 + BitVec.ofNat w j = head + BitVec.ofNat w (j + 1) := by
      rw [Nat.add_comm, BitVec.ofNat_add, ← BitVec.add_assoc]
      rfl
    rw [hnext]
    exact h.slot (j + 1) (Nat.succ_lt_succ hj)

/-- The difference of the counters is the number of elements. -/
theorem Holds.sub_toNat (hN : N < 2 ^ w) (h : Holds N slots head tail q) : (tail - head).toNat = q.length := by
  have hq := h.length_le
  rw [h.tail_eq, BitVec.add_comm, BitVec.add_sub_cancel, BitVec.toNat_ofNat, Nat.mod_eq_of_lt (by omega)]

theorem Holds.empty_iff (hN : N < 2 ^ w) (h : Holds N slots head tail q) : head = tail ↔ q = [] := by
  constructor
  · intro he
    have hlen := h.sub_toNat hN
    rw [he, BitVec.sub_self] at hlen
    exact List.length_eq_zero_iff.mp (by simpa using hlen.symm)
  · rintro rfl
    rw [h.tail_eq]
    simp

theorem Holds.full_iff (hN : N < 2 ^ w) (h : Holds N slots head tail q) :
    tail = head + BitVec.ofNat w N ↔ q.length = N := by
  constructor
  · intro he
    have hlen := h.sub_toNat hN
    rw [he, BitVec.add_comm, BitVec.add_sub_cancel, BitVec.toNat_ofNat, Nat.mod_eq_of_lt hN] at hlen
    exact hlen.symm
  · rintro hq
    rw [h.tail_eq, hq]

end Ring
