import Xv6.Spec.Layout

/-! Reading back what is stored in the blocks of the file system: inodes of an
inode block, bits of a bitmap block, directory entries. -/

namespace Xv6.Fs

open Bytes ByteVec

section Dinode

theorem flatMap_le32_length (f : Fin (NDIRECT + 1) → UInt32) (ks : List (Fin (NDIRECT + 1))) :
    (ks.flatMap fun k => le32 (f k)).length = 4 * ks.length := by
  induction ks with
  | nil => rfl
  | cons k ks ih =>
    rw [List.flatMap_cons, List.length_append, ih, le32_length, List.length_cons]
    omega

/-- The words stored one after the other are read back one by one. -/
theorem take_drop_flatMap_le32 (f : Fin (NDIRECT + 1) → UInt32) (ks : List (Fin (NDIRECT + 1))) (j : ℕ)
    (hj : j < ks.length) : ((ks.flatMap fun k => le32 (f k)).drop (4 * j)).take 4 = le32 (f ks[j]) := by
  induction ks generalizing j with
  | nil => simp at hj
  | cons k ks ih =>
    cases j with
    | zero => simp [le32]
    | succ j =>
      rw [List.flatMap_cons, show 4 * (j + 1) = (le32 (f k)).length + 4 * j by rw [le32_length]; omega,
        List.drop_length_add_append]
      simpa using ih j (by simpa using hj)

theorem encode_length (d : Dinode) : d.encode.length = 64 := by
  simp only [Dinode.encode, List.length_append, le16_length, le32_length, flatMap_le32_length]
  rfl

theorem encode_addr (d : Dinode) (k : Fin (NDIRECT + 1)) :
    (d.encode.drop (12 + 4 * k)).take 4 = le32 (d.addrs k) := by
  have hdrop : d.encode.drop (12 + 4 * k) =
      ((List.finRange (NDIRECT + 1)).flatMap fun k => le32 (d.addrs k)).drop (4 * k) :=
    @List.drop_length_add_append _ (le16 d.type.toUInt16 ++ le16 d.major.toUInt16 ++ le16 d.minor.toUInt16 ++
      le16 d.nlink.toUInt16 ++ le32 d.size) _ (4 * k.val)
  rw [hdrop, take_drop_flatMap_le32 _ _ _ (by simpa using k.isLt)]
  simp

theorem dinode_fits {i : ℕ} (hi : i < IPB) (d : Dinode) : 64 * i + d.encode.length ≤ BSIZE := by
  rw [encode_length]
  have hi : i < 16 := hi
  change 64 * i + 64 ≤ 1024
  omega

theorem dinode_get_put_self (b : Block) {i : ℕ} (d : Dinode) (hi : i < IPB) :
    Dinode.get (Dinode.put b i d) i = d := by
  have hread : ∀ o len, o + len ≤ 64 →
      (Dinode.put b i d).slice (64 * i + o) len = (d.encode.drop o).take len := fun o len ho =>
    slice_splice_within b (64 * i) d.encode o len (dinode_fits hi d) (by rw [encode_length]; exact ho)
  have haddrs : (fun k : Fin (NDIRECT + 1) => (Dinode.put b i d).get32 (64 * i + (12 + 4 * k))) = d.addrs := by
    funext k
    have hk : k.val < 13 := k.isLt
    rw [get32, hread _ _ (by omega), encode_addr, de32_le32]
  have htype : (Dinode.put b i d).slice (64 * i) 2 = le16 d.type.toUInt16 := hread 0 2 (by omega)
  have hmajor : (Dinode.put b i d).slice (64 * i + 2) 2 = le16 d.major.toUInt16 := hread 2 2 (by omega)
  have hminor : (Dinode.put b i d).slice (64 * i + 4) 2 = le16 d.minor.toUInt16 := hread 4 2 (by omega)
  have hnlink : (Dinode.put b i d).slice (64 * i + 6) 2 = le16 d.nlink.toUInt16 := hread 6 2 (by omega)
  have hsize : (Dinode.put b i d).slice (64 * i + 8) 4 = le32 d.size := hread 8 4 (by omega)
  unfold Dinode.get
  rw [haddrs]
  simp only [get16, get32, htype, hmajor, hminor, hnlink, hsize, de16_le16, de32_le32]
  rfl

theorem dinode_get_put_ne (b : Block) {i j : ℕ} (d : Dinode) (hij : i ≠ j) :
    Dinode.get (Dinode.put b i d) j = Dinode.get b j := by
  have hread : ∀ o len, o + len ≤ 64 →
      (Dinode.put b i d).slice (64 * j + o) len = b.slice (64 * j + o) len := fun o len ho => by
    apply slice_splice_disjoint
    rw [encode_length]
    omega
  have haddrs : (fun k : Fin (NDIRECT + 1) => (Dinode.put b i d).get32 (64 * j + (12 + 4 * k))) =
      fun k : Fin (NDIRECT + 1) => b.get32 (64 * j + (12 + 4 * k)) := by
    funext k
    have hk : k.val < 13 := k.isLt
    rw [get32, hread _ _ (by omega), get32]
  unfold Dinode.get
  rw [haddrs]
  simp only [get16, get32, hread 2 2 (by omega), hread 4 2 (by omega), hread 6 2 (by omega),
    hread 8 4 (by omega)]
  rw [show (Dinode.put b i d).slice (64 * j) 2 = b.slice (64 * j) 2 from hread 0 2 (by omega)]

end Dinode

section Bits

/-- The masks of the eight bits of a byte. -/
theorem mask_toNat_testBit {k j : ℕ} (hk : k < 8) (hj : j < 8) :
    (1 <<< UInt8.ofNat k : UInt8).toNat.testBit j = decide (k = j) ∧
      (~~~(1 <<< UInt8.ofNat k : UInt8)).toNat.testBit j = decide (k ≠ j) := by
  have h : ∀ k j : Fin 8, (1 <<< UInt8.ofNat k : UInt8).toNat.testBit j = decide (k = j) ∧
      (~~~(1 <<< UInt8.ofNat k : UInt8)).toNat.testBit j = decide (k ≠ j) := by decide
  simpa using h ⟨k, hk⟩ ⟨j, hj⟩

theorem testBit_eq (b : Block) (bi : ℕ) : testBit b bi = (b.get (bi / 8)).toNat.testBit (bi % 8) := by
  have h : ∀ x : Fin 256, ∀ k : Fin 8,
      (UInt8.ofNat x &&& (1 <<< UInt8.ofNat k) != 0) = (x : ℕ).testBit k := by decide +kernel
  have hx := h ⟨(b.get (bi / 8)).toNat, (b.get (bi / 8)).toNat_lt⟩ ⟨bi % 8, Nat.mod_lt _ (by omega)⟩
  simpa [testBit, mask] using hx

/-- A byte of the bitmap replaced by `x`. -/
theorem testBit_splice (b : Block) {i : ℕ} (j : ℕ) (x : UInt8) (hi : i < BPB) :
    testBit (b.splice (i / 8) [x]) j = if i / 8 = j / 8 then x.toNat.testBit (j % 8) else testBit b j := by
  have hi : i < 8192 := hi
  rw [testBit_eq, testBit_eq]
  split_ifs with h
  · have hin := get_splice_inside b (i / 8) [x] 0 (by simp) (show i / 8 + 1 ≤ 1024 by omega)
    rw [← h]
    rw [Nat.add_zero] at hin
    rw [hin]
    rfl
  · rw [get_splice_outside b (i / 8) [x] (j / 8) (by rw [List.length_singleton]; omega)]

theorem testBit_setBit (b : Block) {i : ℕ} (j : ℕ) (hi : i < BPB) :
    testBit (setBit b i) j = (decide (i = j) || testBit b j) := by
  have hmask := (mask_toNat_testBit (k := i % 8) (j := j % 8) (by omega) (by omega)).1
  rw [setBit, testBit_splice b j _ hi]
  split_ifs with h
  · rw [UInt8.toNat_or, Nat.testBit_or, mask, hmask, testBit_eq, h, Bool.or_comm]
    congr 1
    simp only [decide_eq_decide]
    omega
  · have hne : i ≠ j := by
      rintro rfl
      exact h rfl
    simp [hne]

theorem testBit_clearBit (b : Block) {i : ℕ} (j : ℕ) (hi : i < BPB) :
    testBit (clearBit b i) j = (decide (i ≠ j) && testBit b j) := by
  have hmask := (mask_toNat_testBit (k := i % 8) (j := j % 8) (by omega) (by omega)).2
  rw [clearBit, testBit_splice b j _ hi]
  split_ifs with h
  · rw [UInt8.toNat_and, Nat.testBit_and, mask, hmask, testBit_eq, h, Bool.and_comm]
    congr 1
    simp only [decide_eq_decide]
    omega
  · have hne : i ≠ j := by
      rintro rfl
      exact h rfl
    simp [hne]

end Bits

end Xv6.Fs
