import Mathlib.Tactic

/-! Fixed-size byte arrays with slices, and little-endian integers stored in
them. Every record kept in a byte array is read through `slice` and written
through `splice`, so a codec needs one round trip on lists and nothing else. -/

namespace Bytes

/-- A byte array of exactly `n` bytes. -/
def ByteVec (n : ℕ) := Fin n → UInt8

namespace ByteVec

variable {n : ℕ}

@[ext] theorem ext {a b : ByteVec n} (h : ∀ i, a i = b i) : a = b := funext h

def zero : ByteVec n := fun _ => 0

def get (b : ByteVec n) (o : ℕ) : UInt8 := if h : o < n then b ⟨o, h⟩ else 0

/-- The `len` bytes from offset `o` on. -/
def slice (b : ByteVec n) (o len : ℕ) : List UInt8 := (List.range len).map fun i => b.get (o + i)

/-- Overwrite the bytes from offset `o` on with `bs`. -/
def splice (b : ByteVec n) (o : ℕ) (bs : List UInt8) : ByteVec n :=
  fun i => if o ≤ i.val ∧ i.val < o + bs.length then bs.getD (i.val - o) 0 else b i

@[simp] theorem get_zero (o : ℕ) : (zero : ByteVec n).get o = 0 := by
  unfold get zero
  split_ifs <;> rfl

@[simp] theorem slice_length (b : ByteVec n) (o len : ℕ) : (b.slice o len).length = len := by
  simp [slice]

theorem get_splice (b : ByteVec n) (o : ℕ) (bs : List UInt8) (i : ℕ) (hi : i < n) :
    (b.splice o bs).get i = if o ≤ i ∧ i < o + bs.length then bs.getD (i - o) 0 else b.get i := by
  simp [get, splice, hi]

theorem get_splice_outside (b : ByteVec n) (o : ℕ) (bs : List UInt8) (i : ℕ)
    (h : i < o ∨ o + bs.length ≤ i) : (b.splice o bs).get i = b.get i := by
  by_cases hi : i < n
  · rw [get_splice b o bs i hi, if_neg (by omega)]
  · simp [get, hi]

theorem splice_nil (b : ByteVec n) (o : ℕ) : b.splice o [] = b :=
  funext fun i => if_neg (by rw [List.length_nil]; omega)

theorem get_splice_inside (b : ByteVec n) (o : ℕ) (bs : List UInt8) (i : ℕ)
    (hi : i < bs.length) (hn : o + bs.length ≤ n) : (b.splice o bs).get (o + i) = bs.getD i 0 := by
  rw [get_splice b o bs (o + i) (by omega), if_pos (by omega), Nat.add_sub_cancel_left]

theorem slice_congr (a b : ByteVec n) (o len : ℕ) (h : ∀ i < len, a.get (o + i) = b.get (o + i)) :
    a.slice o len = b.slice o len := by
  apply List.map_congr_left
  intro i hi
  exact h i (List.mem_range.mp hi)

/-- What was spliced in is read back. -/
theorem slice_splice_self (b : ByteVec n) (o : ℕ) (bs : List UInt8) (h : o + bs.length ≤ n) :
    (b.splice o bs).slice o bs.length = bs := by
  apply List.ext_getElem
  · simp
  · intro i h1 h2
    simp only [slice, List.getElem_map, List.getElem_range]
    rw [get_splice_inside b o bs i h2 h, List.getD_eq_getElem?_getD, List.getElem?_eq_getElem h2]
    rfl

/-- A slice that a splice does not touch is unchanged. -/
theorem slice_splice_disjoint (b : ByteVec n) (o : ℕ) (bs : List UInt8) (o' len : ℕ)
    (h : o' + len ≤ o ∨ o + bs.length ≤ o') : (b.splice o bs).slice o' len = b.slice o' len := by
  apply slice_congr
  intro i hi
  exact get_splice_outside b o bs (o' + i) (by omega)

/-- Part of what was spliced in. -/
theorem slice_splice_within (b : ByteVec n) (o : ℕ) (bs : List UInt8) (i len : ℕ)
    (h : o + bs.length ≤ n) (hi : i + len ≤ bs.length) :
    (b.splice o bs).slice (o + i) len = (bs.drop i).take len := by
  apply List.ext_getElem
  · simp only [slice_length, List.length_take, List.length_drop]
    omega
  · intro k h1 h2
    have hk : k < len := by simpa using h1
    simp only [slice, List.getElem_map, List.getElem_range, List.getElem_take, List.getElem_drop]
    rw [Nat.add_assoc, get_splice_inside b o bs (i + k) (by omega) h, List.getD_eq_getElem?_getD,
      List.getElem?_eq_getElem (by omega)]
    rfl

end ByteVec

/-- The two little-endian bytes of a 16-bit integer. -/
def le16 (x : UInt16) : List UInt8 := [UInt8.ofNat x.toNat, UInt8.ofNat (x.toNat / 256)]

def de16 (bs : List UInt8) : UInt16 :=
  UInt16.ofNat ((bs.getD 0 0).toNat + 256 * (bs.getD 1 0).toNat)

/-- The four little-endian bytes of a 32-bit integer. -/
def le32 (x : UInt32) : List UInt8 :=
  [UInt8.ofNat x.toNat, UInt8.ofNat (x.toNat / 256), UInt8.ofNat (x.toNat / 65536),
    UInt8.ofNat (x.toNat / 16777216)]

def de32 (bs : List UInt8) : UInt32 :=
  UInt32.ofNat ((bs.getD 0 0).toNat + 256 * (bs.getD 1 0).toNat +
    65536 * (bs.getD 2 0).toNat + 16777216 * (bs.getD 3 0).toNat)

@[simp] theorem le16_length (x : UInt16) : (le16 x).length = 2 := rfl

@[simp] theorem le32_length (x : UInt32) : (le32 x).length = 4 := rfl

@[simp] theorem de16_le16 (x : UInt16) : de16 (le16 x) = x := by
  apply UInt16.toNat_inj.mp
  have hx := x.toNat_lt
  simp only [de16, le16, List.getD_cons_zero, List.getD_cons_succ, UInt16.toNat_ofNat',
    UInt8.toNat_ofNat']
  omega

@[simp] theorem de32_le32 (x : UInt32) : de32 (le32 x) = x := by
  apply UInt32.toNat_inj.mp
  have hx := x.toNat_lt
  simp only [de32, le32, List.getD_cons_zero, List.getD_cons_succ, UInt32.toNat_ofNat',
    UInt8.toNat_ofNat']
  omega

namespace ByteVec

variable {n : ℕ}

def get16 (b : ByteVec n) (o : ℕ) : UInt16 := de16 (b.slice o 2)

def get32 (b : ByteVec n) (o : ℕ) : UInt32 := de32 (b.slice o 4)

def put32 (b : ByteVec n) (o : ℕ) (x : UInt32) : ByteVec n := b.splice o (le32 x)

@[simp] theorem get32_zero (o : ℕ) : (zero : ByteVec n).get32 o = 0 := by
  simp [get32, slice, de32, List.range_succ]

theorem get32_put32_self (b : ByteVec n) (o : ℕ) (x : UInt32) (h : o + 4 ≤ n) :
    (b.put32 o x).get32 o = x := by
  have hs := slice_splice_self b o (le32 x) (by simpa using h)
  rw [le32_length] at hs
  rw [get32, put32, hs, de32_le32]

theorem get32_put32_ne (b : ByteVec n) (o o' : ℕ) (x : UInt32) (h : o' + 4 ≤ o ∨ o + 4 ≤ o') :
    (b.put32 o x).get32 o' = b.get32 o' := by
  rw [get32, put32, slice_splice_disjoint b o (le32 x) o' 4 (by simpa using h), ← get32]

end ByteVec

end Bytes
