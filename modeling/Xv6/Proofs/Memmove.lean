import Xv6.Lib.Copy
import Xv6.Spec.Memmove
import Xv6.Sanity.Ulib

/-! Both `memmove` copy as if through a buffer: each goes in a direction in which no byte is written before it is read. -/

namespace Xv6.Memmove

variable {mem mem' : Mem} {dst src : Ptr} {n : ℕ}

/-- `mem'` is `mem` with the `n` bytes from `src` at `dst`. -/
structure Moved (mem mem' : Mem) (dst src : Ptr) (n : ℕ) : Prop where
  inside : ∀ i < n, mem' (dst + BitVec.ofNat 64 i) = mem (src + BitVec.ofNat 64 i)
  outside : ∀ a : Ptr, a.toNat < dst.toNat ∨ dst.toNat + n ≤ a.toNat → mem' a = mem a

section Ranges

theorem toNat_at {p : Ptr} {i : ℕ} (h : p.toNat + i < 2 ^ 64) : (p + BitVec.ofNat 64 i).toNat = p.toNat + i := by
  rw [BitVec.toNat_add, BitVec.toNat_ofNat, Nat.add_mod_mod, Nat.mod_eq_of_lt h]

theorem at_ne {p q : Ptr} (hp : p.toNat + n ≤ 2 ^ 64) (hq : q.toNat + n ≤ 2 ^ 64) {i j : ℕ} (hi : i < n) (hj : j < n)
    (h : p.toNat + i ≠ q.toNat + j) : p + BitVec.ofNat 64 i ≠ q + BitVec.ofNat 64 j := by
  intro he
  apply h
  rw [← toNat_at (show p.toNat + i < 2 ^ 64 by omega), he, toNat_at (by omega)]

theorem succ_at (p : Ptr) (i : ℕ) : p + BitVec.ofNat 64 (i + 1) = p + 1 + BitVec.ofNat 64 i := by
  rw [BitVec.ofNat_add, BitVec.add_comm (BitVec.ofNat 64 i), BitVec.add_assoc]
  rfl

theorem pred_at (p : Ptr) (i : ℕ) : p + BitVec.ofNat 64 (i + 1) - 1 = p + BitVec.ofNat 64 i := by
  rw [BitVec.ofNat_add, ← BitVec.add_assoc]
  exact BitVec.add_sub_cancel _ _

theorem Moved.unique {mem₁ mem₂ : Mem} (hdst : dst.toNat + n ≤ 2 ^ 64) (h₁ : Moved mem mem₁ dst src n)
    (h₂ : Moved mem mem₂ dst src n) : mem₁ = mem₂ := by
  funext a
  by_cases ha : a.toNat < dst.toNat ∨ dst.toNat + n ≤ a.toNat
  · rw [h₁.outside a ha, h₂.outside a ha]
  · have hi : a.toNat - dst.toNat < n := by omega
    have heq : a = dst + BitVec.ofNat 64 (a.toNat - dst.toNat) := by
      apply BitVec.eq_of_toNat_eq
      rw [toNat_at (by omega)]
      omega
    rw [heq, h₁.inside _ hi, h₂.inside _ hi]

end Ranges

section Loops

theorem copyUp_eq (n : ℕ) (d s : Ptr) (mem : Mem) : copyUp n d s mem =
    Copy.run (fun i => d + BitVec.ofNat 64 i) (fun i => s + BitVec.ofNat 64 i) (List.range n) mem := by
  induction n generalizing d s mem with
  | zero => rfl
  | succ n ih =>
    rw [copyUp, ih, List.range_succ_eq_map, Copy.run, Copy.run_map]
    simp only [Function.comp_def, succ_at, BitVec.add_zero]

theorem copyDown_eq (n : ℕ) (d s : Ptr) (mem : Mem) :
    copyDown n (d + BitVec.ofNat 64 n) (s + BitVec.ofNat 64 n) mem =
      Copy.run (fun i => d + BitVec.ofNat 64 i) (fun i => s + BitVec.ofNat 64 i) (List.range n).reverse mem := by
  induction n generalizing mem with
  | zero => rfl
  | succ n ih => rw [copyDown, pred_at, pred_at, ih, List.range_succ, List.reverse_concat, Copy.run]

/-- A loop that takes the bytes in the order of `is`. -/
theorem run_moved {is : List ℕ} (hdst : dst.toNat + n ≤ 2 ^ 64) (hmem : ∀ i, i ∈ is ↔ i < n)
    (h : is.Pairwise fun i j => dst + BitVec.ofNat 64 i ≠ dst + BitVec.ofNat 64 j ∧
      dst + BitVec.ofNat 64 i ≠ src + BitVec.ofNat 64 j) :
    Moved mem (Copy.run (fun i => dst + BitVec.ofNat 64 i) (fun i => src + BitVec.ofNat 64 i) is mem) dst src n := by
  refine ⟨fun i hi => Copy.run_inside h ((hmem i).mpr hi), fun a ha => Copy.run_outside fun i hi he => ?_⟩
  have hi := (hmem i).mp hi
  rw [he, toNat_at (by omega)] at ha
  omega

variable (hdst : dst.toNat + n ≤ 2 ^ 64) (hsrc : src.toNat + n ≤ 2 ^ 64)

include hdst hsrc

/-- Upwards, unless the destination begins inside the source. -/
theorem copyUp_moved (h : dst.toNat ≤ src.toNat ∨ src.toNat + n ≤ dst.toNat) : Moved mem (copyUp n dst src mem) dst src n := by
  rw [copyUp_eq]
  refine run_moved hdst (fun i => List.mem_range) (List.pairwise_lt_range.imp_of_mem fun {i j} hi hj hij => ?_)
  rw [List.mem_range] at hi hj
  exact ⟨at_ne hdst hdst hi hj (by omega), at_ne hdst hsrc hi hj (by omega)⟩

/-- Downwards, where the source does not begin above. -/
theorem copyDown_moved (h : src.toNat ≤ dst.toNat) :
    Moved mem (copyDown n (dst + BitVec.ofNat 64 n) (src + BitVec.ofNat 64 n) mem) dst src n := by
  rw [copyDown_eq]
  refine run_moved hdst (fun i => by rw [List.mem_reverse, List.mem_range]) ?_
  refine (List.pairwise_reverse.mpr List.pairwise_lt_range).imp_of_mem fun {i j} hi hj hij => ?_
  rw [List.mem_reverse, List.mem_range] at hi hj
  exact ⟨at_ne hdst hdst hi hj (by omega), at_ne hdst hsrc hi hj (by omega)⟩

end Loops

section Functions

variable {len : BitVec 32} (hdst : dst.toNat + len.toNat ≤ 2 ^ 64) (hsrc : src.toNat + len.toNat ≤ 2 ^ 64)

include hdst hsrc

theorem Kernel.memmove_moved : Moved mem (Kernel.memmove dst src len mem).1 dst src len.toNat := by
  have hlen : len.setWidth 64 = BitVec.ofNat 64 len.toNat := (BitVec.ofNat_toNat 64 len).symm
  unfold Kernel.memmove
  simp only
  split_ifs with h0 hover
  · rw [h0]
    exact ⟨nofun, fun a _ => rfl⟩
  · rw [hlen]
    exact copyDown_moved hdst hsrc (BitVec.lt_def.mp hover.1).le
  · refine copyUp_moved hdst hsrc ?_
    by_contra h
    have hlt : src.toNat < dst.toNat := by omega
    -- below the destination, the end of the source is not past the address space
    refine hover ⟨BitVec.lt_def.mpr hlt, ?_⟩
    rw [gt_iff_lt, hlen, BitVec.lt_def, toNat_at (by omega)]
    omega

theorem User.memmove_moved (hlen : 0 ≤ len.toInt) : Moved mem (User.memmove dst src len mem).1 dst src len.toNat := by
  have hmsb : len.msb = false := by
    by_contra h
    exact absurd hlen (not_le.mpr (BitVec.toInt_neg_of_msb_true (Bool.not_eq_false _ ▸ h)))
  have hturns : len.toInt.toNat = len.toNat := by
    rw [BitVec.toInt_eq_toNat_of_msb hmsb, Int.toNat_natCast]
  have hext : len.signExtend 64 = BitVec.ofNat 64 len.toNat := by
    rw [BitVec.signExtend_eq_setWidth_of_msb_false hmsb, BitVec.ofNat_toNat]
  unfold User.memmove
  simp only [hturns, hext]
  split_ifs with h
  · exact copyUp_moved hdst hsrc (.inl (BitVec.lt_def.mp h).le)
  · exact copyDown_moved hdst hsrc (not_lt.mp fun hlt => h (BitVec.lt_def.mpr hlt))

end Functions

theorem Kernel.memmove_returns (dst src : Ptr) (n : BitVec 32) (mem : Mem) : (Kernel.memmove dst src n mem).2 = dst := by
  unfold Kernel.memmove
  simp only
  split_ifs <;> rfl

theorem User.memmove_returns (dst src : Ptr) (n : BitVec 32) (mem : Mem) : (User.memmove dst src n mem).2 = dst := by
  unfold User.memmove
  simp only
  split_ifs <;> rfl

/-- **Moving memory.** Where neither range wraps around, both functions leave at the destination what was at the source before,
however the ranges overlap, and every other byte as it was, and they agree; the user's length is an `int`. -/
theorem memmove_copies (mem : Mem) (dst src : Ptr) (n : BitVec 32) (hdst : dst.toNat + n.toNat ≤ 2 ^ 64)
    (hsrc : src.toNat + n.toNat ≤ 2 ^ 64) :
    Moved mem (Kernel.memmove dst src n mem).1 dst src n.toNat ∧ (Kernel.memmove dst src n mem).2 = dst ∧
    (0 ≤ n.toInt → Moved mem (User.memmove dst src n mem).1 dst src n.toNat ∧
      User.memmove dst src n mem = Kernel.memmove dst src n mem) := by
  have hkernel := @Kernel.memmove_moved mem dst src n hdst hsrc
  refine ⟨hkernel, Kernel.memmove_returns .., fun hn => ?_⟩
  have huser := @User.memmove_moved mem dst src n hdst hsrc hn
  refine ⟨huser, Prod.ext (huser.unique hdst hkernel) ?_⟩
  rw [User.memmove_returns, Kernel.memmove_returns]

/-- Four bytes are moved up by two. -/
theorem memmove_copies_overlap : (User.memmove 12 10 4 fun a => UInt8.ofNat a.toNat).1 15 = 13 ∧
    (Kernel.memmove 12 10 4 fun a => UInt8.ofNat a.toNat).1 15 = 13 := by
  obtain ⟨hkernel, -, huser⟩ := memmove_copies (fun a => UInt8.ofNat a.toNat) 12 10 4 (by decide) (by decide)
  exact ⟨(huser (by decide)).1.inside 3 (by decide), hkernel.inside 3 (by decide)⟩

section Buffers

/-- The bytes of a buffer. -/
def window (base : Ptr) (size : ℕ) (mem : Mem) : List UInt8 := (List.range size).map fun i => mem (base + BitVec.ofNat 64 i)

theorem window_get {base : Ptr} {size i : ℕ} (hi : i < size) :
    (window base size mem)[i]? = some (mem (base + BitVec.ofNat 64 i)) := by
  rw [window, List.getElem?_map, List.getElem?_range hi]
  rfl

/-- Inside a buffer, `memmove` is the function on lists of bytes. -/
theorem memmove_window {base : Ptr} {size d s : ℕ} {len : BitVec 32} (hsize : base.toNat + size < 2 ^ 64)
    (hlen : 0 ≤ len.toInt) (hd : d + len.toNat ≤ size) (hs : s + len.toNat ≤ size) :
    Ulib.memmove d s len.toNat (window base size mem) =
      .ok (window base size (User.memmove (base + BitVec.ofNat 64 d) (base + BitVec.ofNat 64 s) len mem).1) := by
  have hdst := @toNat_at base d (by omega)
  have hsrc := @toNat_at base s (by omega)
  have hmoved := @User.memmove_moved mem (base + BitVec.ofNat 64 d) (base + BitVec.ofNat 64 s) len (by omega) (by omega) hlen
  have hwindow : ∀ m, (window base size m).length = size := fun m => by rw [window, List.length_map, List.length_range]
  obtain ⟨bytes, hrun, hlength, hget⟩ := @Ulib.memmove_moved (window base size mem) d s len.toNat
    (by rw [hwindow]; exact hd) (by rw [hwindow]; exact hs)
  rw [hrun]
  congr 1
  apply List.ext_getElem?
  intro i
  by_cases hi : i < size
  · rw [hget]
    split_ifs with hin
    · obtain ⟨k, rfl⟩ := Nat.exists_eq_add_of_le hin.1
      have hk := hmoved.inside k (by omega)
      rw [BitVec.add_assoc, BitVec.add_assoc, ← BitVec.ofNat_add, ← BitVec.ofNat_add] at hk
      rw [Nat.add_sub_cancel_left, window_get (by omega), window_get hi, hk]
    · rw [window_get hi, window_get hi, hmoved.outside]
      rw [hdst, toNat_at (by omega)]
      omega
  · rw [List.getElem?_eq_none (by rw [hlength, hwindow]; omega), List.getElem?_eq_none (by rw [hwindow]; omega)]

end Buffers

end Xv6.Memmove
