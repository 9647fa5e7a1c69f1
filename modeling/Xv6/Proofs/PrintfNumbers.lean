import Mathlib.Data.BitVec
import Xv6.Spec.Printf
import Xv6.Sanity.Ulib

/-! The numbers that `printf` prints, read back. -/

namespace Xv6.Printf

open Ulib (Stop ok_bind)

section Reading

/-- The number a digit stands for, in either case. -/
def digitValue (c : UInt8) : Option ℕ :=
  if 48 ≤ c ∧ c ≤ 57 then some (c.toNat - 48)
  else if 65 ≤ c ∧ c ≤ 70 then some (c.toNat - 55)
  else if 97 ≤ c ∧ c ≤ 102 then some (c.toNat - 87)
  else none

def readDigit (base v : ℕ) (c : UInt8) : Option ℕ := do
  let d ← digitValue c
  if d < base then some (v * base + d) else none

def readNat (base : ℕ) (chars : List UInt8) : Option ℕ := chars.foldlM (readDigit base) 0

/-- An optional minus sign and digits. -/
def readInt (base : ℕ) : List UInt8 → Option ℤ
  | 45 :: chars => (readNat base chars).map fun n => -(n : ℤ)
  | chars => (readNat base chars).map fun n => (n : ℤ)

/-- Digits, after a sign if there is one, and a zero at their start only as the number 0. -/
def Plain (chars : List UInt8) : Prop :=
  let ds := if chars.head? = some 45 then chars.tail else chars
  ds ≠ [] ∧ (ds.head? = some 48 → ds = [48])

instance (chars : List UInt8) : Decidable (Plain chars) := inferInstanceAs (Decidable (_ ∧ _))

/-- The characters are the number `v` in the base. -/
def Denotes (base : ℕ) (chars : List UInt8) (v : ℤ) : Prop := readInt base chars = some v ∧ Plain chars

instance (base : ℕ) (chars : List UInt8) (v : ℤ) : Decidable (Denotes base chars v) := inferInstanceAs (Decidable (_ ∧ _))

end Reading

section Digits

/-- A table of 16 digits. -/
structure Table (digits : List UInt8) : Prop where
  value : ∀ d < 16, digitValue (digits.getD d 0) = some d
  sign : ∀ d < 16, digits.getD d 0 ≠ 45
  zero : ∀ d < 16, digits.getD d 0 = 48 → d = 0

theorem User.table : Table digits := ⟨by decide, by decide, by decide⟩

theorem Kernel.table : Table digits := ⟨by decide, by decide, by decide⟩

/-- The digits of a number, at least one, least significant first. -/
def canonical (base x : ℕ) : List ℕ := if x = 0 then [0] else Nat.digits base x

/-- A number written out with these characters: a minus sign where it is negative, and the digits of its magnitude. -/
def numeral (char : ℕ → UInt8) (base : ℕ) (v : ℤ) : List UInt8 :=
  let ds := ((canonical base v.natAbs).map char).reverse
  if v < 0 then 45 :: ds else ds

variable {digits : List UInt8} {base : ℕ}

theorem canonical_lt (hbase : 2 ≤ base) {x : ℕ} : ∀ d ∈ canonical base x, d < base := by
  intro d hd
  unfold canonical at hd
  split_ifs at hd
  · rw [List.mem_singleton.mp hd]
    omega
  · exact Nat.digits_lt_base hbase hd

theorem ofDigits_canonical {x : ℕ} : Nat.ofDigits base (canonical base x) = x := by
  unfold canonical
  split_ifs with h
  · simp [h]
  · exact Nat.ofDigits_digits base x

theorem length_canonical_le (hbase : 2 ≤ base) {x k : ℕ} (hk : 0 < k) (hx : x < base ^ k) : (canonical base x).length ≤ k := by
  unfold canonical
  split_ifs
  · exact hk
  · exact (Nat.digits_length_le_iff hbase x).mpr hx

/-- One turn of the loop. -/
theorem canonical_step (hbase : 2 ≤ base) {x : ℕ} :
    canonical base x = x % base :: if x / base ≠ 0 then canonical base (x / base) else [] := by
  unfold canonical
  split_ifs with h0 h1 h1
  · rw [h0, Nat.zero_div] at h1
    exact absurd rfl h1
  · rw [h0, Nat.zero_mod]
  · rw [Nat.digits_def' hbase (Nat.pos_of_ne_zero h0)]
  · rw [Nat.digits_def' hbase (Nat.pos_of_ne_zero h0), not_not.mp h1, Nat.digits_zero]

theorem digitsFrom_eq (hbase : 2 ≤ base) {room x : ℕ} {buf : List UInt8} (hroom : (canonical base x).length ≤ room) :
    digitsFrom digits base room x buf =
      .ok (room - (canonical base x).length, ((canonical base x).map (digits.getD · 0)).reverse ++ buf) := by
  induction room generalizing x buf with
  | zero =>
    rw [canonical_step hbase, List.length_cons] at hroom
    omega
  | succ room ih =>
    rw [digitsFrom]
    rw [canonical_step hbase] at hroom ⊢
    split_ifs with h
    · rw [if_pos h, List.length_cons] at hroom
      rw [ih (by omega), List.length_cons, List.map_cons, List.reverse_cons, List.append_assoc, Nat.add_sub_add_right]
      rfl
    · rfl

/-- The digits, most significant first, are read back. -/
theorem readNat_digits (htable : Table digits) (h16 : base ≤ 16) {ds : List ℕ} (hds : ∀ d ∈ ds, d < base) :
    readNat base (ds.map (digits.getD · 0)).reverse = some (Nat.ofDigits base ds) := by
  induction ds with
  | nil => rfl
  | cons d ds ih =>
    obtain ⟨hd, hrest⟩ := List.forall_mem_cons.mp hds
    have hread := ih hrest
    unfold readNat at hread ⊢
    have hdigit : ∀ v, readDigit base v (digits.getD d 0) = some (d + base * v) := by
      intro v
      rw [readDigit, htable.value d (by omega), Nat.add_comm, Nat.mul_comm]
      exact if_pos hd
    rw [List.map_cons, List.reverse_cons, List.foldlM_append, hread, Nat.ofDigits_cons]
    simpa using hdigit _

theorem canonical_top {x : ℕ} : ∃ init top, canonical base x = init ++ [top] ∧ (top = 0 → init = []) := by
  unfold canonical
  split_ifs with h
  · exact ⟨[], 0, rfl, fun _ => rfl⟩
  · have hne : Nat.digits base x ≠ [] := Nat.digits_ne_nil_iff_ne_zero.mpr h
    refine ⟨_, _, (List.dropLast_append_getLast hne).symm, fun htop => ?_⟩
    exact absurd htop (Nat.getLast_digit_ne_zero base h)

/-- The digits of `x`, with a sign or without. -/
theorem denotes_digits (htable : Table digits) (hbase : 2 ≤ base) (h16 : base ≤ 16) {x : ℕ} {chars : List UInt8}
    (hchars : chars = ((canonical base x).map (digits.getD · 0)).reverse) :
    Denotes base chars x ∧ Denotes base (45 :: chars) (-x) := by
  have hlt := canonical_lt hbase (x := x)
  have hread := readNat_digits htable h16 hlt
  rw [← hchars, ofDigits_canonical] at hread
  obtain ⟨init, top, hcan, htop⟩ := @canonical_top base x
  have htop16 : top < 16 := lt_of_lt_of_le (hlt top (by rw [hcan]; simp)) h16
  rw [hcan, List.map_append, List.reverse_append, List.map_singleton, List.reverse_singleton, List.singleton_append] at hchars
  have hsign := htable.sign top htop16
  have hplain : chars ≠ [] ∧ (chars.head? = some 48 → chars = [48]) := by
    rw [hchars]
    refine ⟨List.cons_ne_nil _ _, fun hhead => ?_⟩
    have hzero := Option.some.inj hhead
    rw [htop (htable.zero top htop16 hzero), hzero]
    rfl
  have hhead : chars.head? ≠ some 45 := by
    rw [hchars]
    exact fun h => hsign (Option.some.inj h)
  refine ⟨⟨?_, by rw [Plain, if_neg hhead]; exact hplain⟩, by rw [readInt, hread]; rfl, hplain⟩
  rw [readInt.eq_2 base chars fun cs hcs => hhead (by rw [hcs]; rfl), hread]
  rfl

theorem denotes_numeral (htable : Table digits) (hbase : 2 ≤ base) (h16 : base ≤ 16) (v : ℤ) :
    Denotes base (numeral (digits.getD · 0) base v) v := by
  obtain ⟨hpos, hneg⟩ := denotes_digits htable hbase h16 (x := v.natAbs) rfl
  unfold numeral
  split_ifs with h
  · rwa [show -(v.natAbs : ℤ) = v by omega] at hneg
  · rwa [show (v.natAbs : ℤ) = v by omega] at hpos

/-- The number that `printint` is given. -/
def given (sgn : Bool) (xx : BitVec 64) : ℤ := if sgn then xx.toInt else xx.toNat

/-- A number that fits the width is printed, and fits the buffer. -/
theorem printintWide_eq (hbase : base = 10 ∨ base = 16) {width : ℕ} {xx : BitVec 64} {sgn : Bool}
    (hfit : (given sgn xx).natAbs < 2 ^ width) :
    printintWide digits width xx base sgn = .ok (numeral (digits.getD · 0) base (given sgn xx)) ∧
      (numeral (digits.getD · 0) base (given sgn xx)).length ≤ 20 := by
  have h2 : 2 ≤ base := by omega
  have hlen : ∀ {x k}, 0 < k → x < 10 ^ k → (canonical base x).length ≤ k := fun hk hx =>
    length_canonical_le h2 hk (lt_of_lt_of_le hx (Nat.pow_le_pow_left (by omega) _))
  have hxx := xx.isLt
  unfold printintWide
  cases hneg : sgn && xx.msb with
  | false =>
    have hgiven : given sgn xx = xx.toNat := by
      cases sgn with
      | false => rfl
      | true => exact BitVec.toInt_eq_toNat_of_msb hneg
    rw [hgiven, Int.natAbs_natCast] at hfit
    have hroom : (canonical base xx.toNat).length ≤ 20 := hlen (by decide) (by omega)
    rw [hgiven, numeral, Int.natAbs_natCast, if_neg (by omega)]
    refine ⟨?_, by rwa [List.length_reverse, List.length_map]⟩
    simp only [Bool.false_eq_true, if_false, Nat.mod_eq_of_lt hfit]
    rw [digitsFrom_eq h2 hroom, List.append_nil]
    rfl
  | true =>
    obtain ⟨rfl, hmsb⟩ := (Bool.and_eq_true ..).mp hneg
    have hhalf : 2 ^ 63 ≤ xx.toNat := by simpa [BitVec.msb_eq_decide] using hmsb
    have habs : (-xx).toNat = 2 ^ 64 - xx.toNat := by
      rw [BitVec.toNat_neg, Nat.mod_eq_of_lt (by omega)]
    have hgiven : given true xx = -((-xx).toNat : ℤ) := by
      rw [given, if_pos rfl, BitVec.toInt_eq_msb_cond, if_pos hmsb, habs]
      omega
    rw [hgiven, Int.natAbs_neg, Int.natAbs_natCast] at hfit
    -- one byte is left for the sign
    have hroom : (canonical base (-xx).toNat).length ≤ 19 := hlen (by decide) (by omega)
    rw [hgiven, numeral, Int.natAbs_neg, Int.natAbs_natCast, if_pos (by omega)]
    refine ⟨?_, by rw [List.length_cons, List.length_reverse, List.length_map]; omega⟩
    simp only [if_true, Nat.mod_eq_of_lt hfit]
    rw [digitsFrom_eq h2 (by omega), List.append_nil, ok_bind]
    exact if_neg (by omega)

end Digits

section Conversions

inductive Kind where
  | signed
  | unsigned
  | hex
  deriving DecidableEq

inductive Size where
  | int
  | long
  | longlong
  deriving DecidableEq

/-- `d`, `u` or `x`, after as many `l` as the size has. -/
def letters (kind : Kind) (size : Size) : List UInt8 :=
  let c := match kind with
    | .signed => 100
    | .unsigned => 117
    | .hex => 120
  match size with
  | .int => [c]
  | .long => [108, c]
  | .longlong => [108, 108, c]

def Kind.sgn (kind : Kind) : Bool := kind = .signed

def Kind.base (kind : Kind) : ℕ := if kind = .hex then 16 else 10

/-- The value that a conversion is given in a register. -/
def value (kind : Kind) (size : Size) (w : BitVec 64) : ℤ :=
  match size with
  | .int => if kind.sgn then (w.setWidth 32).toInt else (w.setWidth 32).toNat
  | _ => if kind.sgn then w.toInt else w.toNat

/-- The register as `printint` takes it. -/
def widened (kind : Kind) (size : Size) (w : BitVec 64) : BitVec 64 :=
  match size with
  | .int => if kind.sgn then (w.setWidth 32).signExtend 64 else (w.setWidth 32).setWidth 64
  | _ => w

variable {kind : Kind} {size : Size} {w : BitVec 64}

theorem given_widened : given kind.sgn (widened kind size w) = value kind size w := by
  cases size with
  | int =>
    unfold given widened value
    split_ifs
    · rw [BitVec.toInt_signExtend_of_le (by decide)]
    · rw [BitVec.toNat_setWidth_of_le (by decide)]
  | long => rfl
  | longlong => rfl

/-- A conversion goes on where its letters end. -/
theorem conversion_letters {digits : List UInt8} {printint : BitVec 64 → ℕ → Bool → Except Stop (List UInt8)}
    {rest : List UInt8} {args : List Arg} {chars : List UInt8}
    (h : printint (widened kind size w) kind.base kind.sgn = .ok chars) :
    ∃ c0 fmt skip, letters kind size ++ rest = c0 :: fmt ∧ fmt.drop skip = rest ∧
      conversion digits printint c0 (lookahead fmt).1 (lookahead fmt).2 (.word w :: args) = .ok (chars, args, skip) := by
  have hret : ∀ skip : ℕ, (do return (← printint (widened kind size w) kind.base kind.sgn, args, skip)) =
      (.ok (chars, args, skip) : Except Stop _) := fun skip => by rw [h]; rfl
  cases size with
  | int => exact ⟨_, rest, 0, rfl, rfl, by cases kind <;> exact hret 0⟩
  | long => exact ⟨_, _, 1, rfl, rfl, by cases kind <;> exact hret 1⟩
  | longlong => exact ⟨_, _, 2, rfl, rfl, by cases kind <;> exact hret 2⟩

end Conversions

theorem given_lt (sgn : Bool) (xx : BitVec 64) : (given sgn xx).natAbs < 2 ^ 64 := by
  have hxx := xx.isLt
  have hint := BitVec.toInt_eq_toNat_cond xx
  unfold given
  split_ifs at hint ⊢ <;> omega

section Kernel

/-- The character of a digit, in lower case. -/
def digitChar (d : ℕ) : UInt8 := UInt8.ofNat (if d < 10 then 48 + d else 87 + d)

theorem numeral_kernel {base : ℕ} (hbase : 2 ≤ base) (h16 : base ≤ 16) (v : ℤ) :
    numeral (Kernel.digits.getD · 0) base v = numeral digitChar base v := by
  have htable : ∀ d < 16, Kernel.digits.getD d 0 = digitChar d := by decide
  unfold numeral
  rw [List.map_congr_left fun d hd => htable d (lt_of_lt_of_le (canonical_lt hbase d hd) h16)]

/-- **Kernel numbers.** The kernel's `printint` keeps to its buffer and prints each 64-bit number, signed or unsigned, in its
canonical form. -/
theorem kernel_printint_exact (xx : BitVec 64) (sgn : Bool) (base : ℕ) (hbase : base = 10 ∨ base = 16) :
    Kernel.printint xx base sgn = .ok (numeral digitChar base (given sgn xx)) ∧
      (numeral digitChar base (given sgn xx)).length ≤ 20 ∧
      Denotes base (numeral digitChar base (given sgn xx)) (given sgn xx) := by
  rw [← numeral_kernel (by omega) (by omega)]
  obtain ⟨hrun, hlen⟩ := @printintWide_eq Kernel.digits base hbase 64 xx sgn (given_lt sgn xx)
  exact ⟨hrun, hlen, denotes_numeral Kernel.table (by omega) (by omega) _⟩

/-- The least number takes the whole buffer: `-9223372036854775808`. -/
theorem kernel_printint_exact_least : Kernel.printint (BitVec.intMin 64) 10 true =
    .ok [45, 57, 50, 50, 51, 51, 55, 50, 48, 51, 54, 56, 53, 52, 55, 55, 53, 56, 48, 56] := by
  rw [(kernel_printint_exact (BitVec.intMin 64) true 10 (.inl rfl)).1, show given true (BitVec.intMin 64) = -2 ^ 63 by decide]
  simp [numeral, canonical, digitChar]

end Kernel

end Xv6.Printf
