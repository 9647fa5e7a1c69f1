import Xv6.Spec.Inode
import Xv6.Sanity.Layout

/-! The disk as the file system sees it: inodes and bitmap bits, and what writes to
the inode area, the bitmap and the data area change of them. On top of that, what
`balloc` and `bfree` do. -/

namespace Xv6.Fs

open Bytes Wp

/-- The inode `i` on disk, and the bitmap bit of block `b`. -/
def dino (sb : Superblock) (s : State) (i : ℕ) : Dinode := Dinode.get (s.disk (sb.iblock i)) (i % IPB)

def marked (sb : Superblock) (s : State) (b : ℕ) : Bool := testBit (s.disk (sb.bblock b)) (b % BPB)

/-- The transaction and the generations, which only `begin_op`, `end_op` and `ialloc` change. -/
def State.aux (s : State) : ℕ × (ℕ → ℕ) := (s.tx, s.gen)

def dataArea (sb : Superblock) : Set ℕ := { b | sb.datastart ≤ b ∧ b < sb.size }

section Areas

variable {sb : Superblock} (hsb : sb.Wf)

include hsb

theorem iblock_lt {i : ℕ} (hi : i < sb.ninodes) : sb.iblock i < sb.bmapstart := by
  have hdiv := Nat.div_le_div_right (c := IPB) hi.le
  rw [hsb.bmapstart, Superblock.iblock]
  generalize i / IPB = x at hdiv ⊢
  omega

omit hsb in
theorem bblock_lt {b : ℕ} (hb : b < sb.size) : sb.bmapstart ≤ sb.bblock b ∧ sb.bblock b < sb.datastart := by
  have hdiv := Nat.div_le_div_right (c := BPB) hb.le
  rw [Superblock.bblock, Superblock.datastart]
  generalize b / BPB = x at hdiv ⊢
  omega

theorem datastart_pos : 2 ≤ sb.datastart := by
  have h1 := hsb.inodestart
  have h2 := hsb.bmapstart
  rw [Superblock.datastart]
  generalize sb.size / BPB = x
  generalize sb.ninodes / IPB = y at h2
  omega

end Areas

theorem bblock_eq_iff {sb : Superblock} {b c : ℕ} : sb.bblock b = sb.bblock c ↔ b / BPB = c / BPB := by
  simp [Superblock.bblock]

theorem iblock_eq_iff {sb : Superblock} {i j : ℕ} : sb.iblock i = sb.iblock j ↔ i / IPB = j / IPB := by
  simp [Superblock.iblock]

section Writes

variable {sb : Superblock} {s : State} {b c i j : ℕ} {d : Block}

@[simp] theorem write_disk_self : (s.write b d).disk b = d := by simp [State.write, State.poke]

theorem write_disk_ne (h : c ≠ b) : (s.write b d).disk c = s.disk c := by simp [State.write, State.poke, h]

@[simp] theorem write_itable : (s.write b d).itable = s.itable := rfl

@[simp] theorem note_itable {e : TxEvent} : (s.note e).itable = s.itable := rfl

@[simp] theorem poke_itable : (s.poke b d).itable = s.itable := rfl

@[simp] theorem poke_disk_self : (s.poke b d).disk b = d := by simp [State.poke]

@[simp] theorem setInode_disk {ip : Ip} {e : Inode} : (s.setInode ip e).disk = s.disk := rfl

@[simp] theorem setInode_itable_self {ip : Ip} {e : Inode} : (s.setInode ip e).itable ip = e := by
  simp [State.setInode]

theorem setInode_itable_ne {ip jp : Ip} {e : Inode} (h : jp ≠ ip) :
    (s.setInode ip e).itable jp = s.itable jp := by
  simp [State.setInode, h]

theorem dino_congr {s' : State} (h : s'.disk (sb.iblock i) = s.disk (sb.iblock i)) : dino sb s' i = dino sb s i := by
  rw [dino, h, dino]

theorem marked_congr {s' : State} (h : s'.disk (sb.bblock b) = s.disk (sb.bblock b)) :
    marked sb s' b = marked sb s b := by
  rw [marked, h, marked]

/-- Writing an inode to its place changes that inode and no bit. -/
theorem dino_writeInode (dn : Dinode) :
    dino sb (s.write (sb.iblock i) (Dinode.put (s.disk (sb.iblock i)) (i % IPB) dn)) j =
      if j = i then dn else dino sb s j := by
  have hIPB : 0 < IPB := by decide
  split_ifs with h
  · subst h
    rw [dino, write_disk_self]
    exact dinode_get_put_self _ dn (Nat.mod_lt _ hIPB)
  · by_cases hb : sb.iblock j = sb.iblock i
    · have hmod : i % IPB ≠ j % IPB := fun hm => h (by
        have hdiv := iblock_eq_iff.mp hb
        rw [← Nat.div_add_mod j IPB, ← Nat.div_add_mod i IPB, hdiv, hm])
      rw [dino, hb, write_disk_self, dinode_get_put_ne _ dn hmod, dino, hb]
    · exact dino_congr (write_disk_ne hb)

/-- Writing the bitmap block of `b` with only the bit of `b` changed. -/
theorem marked_writeBit {x : Block} {v : Bool}
    (hx : ∀ k, testBit x k = if b % BPB = k then v else testBit (s.disk (sb.bblock b)) k) :
    marked sb (s.write (sb.bblock b) x) = Function.update (marked sb s) b v := by
  funext c
  by_cases hb : sb.bblock c = sb.bblock b
  · rw [marked, hb, write_disk_self, hx, Function.update_apply]
    by_cases hc : c = b
    · simp [hc]
    · have hmod : b % BPB ≠ c % BPB := fun hm => hc (by
        have hdiv := bblock_eq_iff.mp hb
        rw [← Nat.div_add_mod c BPB, ← Nat.div_add_mod b BPB, hdiv, hm])
      rw [if_neg hmod, if_neg hc, marked, hb]
  · have hc : c ≠ b := by
      rintro rfl
      exact hb rfl
    rw [Function.update_of_ne hc]
    exact marked_congr (write_disk_ne hb)

theorem marked_setBit :
    marked sb (s.write (sb.bblock b) (setBit (s.disk (sb.bblock b)) (b % BPB))) =
      Function.update (marked sb s) b true := by
  apply marked_writeBit
  intro k
  rw [testBit_setBit _ _ (Nat.mod_lt _ (by decide))]
  split_ifs with h <;> simp [h]

theorem marked_clearBit :
    marked sb (s.write (sb.bblock b) (clearBit (s.disk (sb.bblock b)) (b % BPB))) =
      Function.update (marked sb s) b false := by
  apply marked_writeBit
  intro k
  rw [testBit_clearBit _ _ (Nat.mod_lt _ (by decide))]
  split_ifs with h <;> simp [h]

/-- Writes outside the inode area and outside the bitmap. -/
theorem dino_write_ge (hsb : sb.Wf) (hi : i < sb.ninodes) (hb : sb.bmapstart ≤ b) :
    dino sb (s.write b d) i = dino sb s i :=
  dino_congr (write_disk_ne (by have := iblock_lt hsb hi; omega))

theorem marked_write_data (hc : c < sb.size) (hb : sb.datastart ≤ b) :
    marked sb (s.write b d) c = marked sb s c :=
  marked_congr (write_disk_ne (by have := bblock_lt hc; omega))

theorem marked_write_inode (hsb : sb.Wf) (hi : i < sb.ninodes) (hc : c < sb.size) :
    marked sb (s.write (sb.iblock i) d) c = marked sb s c :=
  marked_congr (write_disk_ne (by have := bblock_lt hc; have := iblock_lt hsb hi; omega))

end Writes

section Balloc

variable {sb : Superblock} {s : State}

theorem findFree_some {bp : Block} {b size n bi k : ℕ} (h : findFree bp b size n bi = some k) :
    bi ≤ k ∧ k < bi + n ∧ b + k < size ∧ testBit bp k = false := by
  induction n generalizing bi with
  | zero => simp [findFree] at h
  | succ n ih =>
    rw [findFree] at h
    split_ifs at h with hlt hset
    · obtain ⟨h1, h2, h3, h4⟩ := ih h
      exact ⟨by omega, by omega, h3, h4⟩
    · obtain rfl := Option.some.inj h
      exact ⟨le_rfl, by omega, hlt, by simpa using hset⟩

/-- The state after `balloc` took block `b`. -/
def State.alloc (sb : Superblock) (s : State) (b : ℕ) : State :=
  (s.write (sb.bblock b) (setBit (s.disk (sb.bblock b)) (b % BPB))).write b ByteVec.zero

theorem ballocFrom_spec (n : ℕ) {b : ℕ} (hb : b % BPB = 0) :
    wp (ballocFrom sb n b) (fun r s' => (r = 0 ∧ s' = s) ∨
      ∃ c < sb.size, marked sb s c = false ∧ r = UInt32.ofNat c ∧ s' = s.alloc sb c) (fun _ => False) s := by
  induction n generalizing b with
  | zero => exact Or.inl ⟨rfl, rfl⟩
  | succ n ih =>
    rw [ballocFrom, wp_ite]
    refine ⟨fun _ => ?_, fun _ => Or.inl ⟨rfl, rfl⟩⟩
    simp only [bread, wp_bind, wp_get, wp_pure]
    split
    · rename_i bi hbi
      obtain ⟨-, hlt, hsize, hfree⟩ := findFree_some hbi
      have hlt : bi < BPB := by simpa using hlt
      have hdiv : (b + bi) / BPB = b / BPB := by
        rw [Nat.add_div_of_dvd_right (Nat.dvd_of_mod_eq_zero hb), Nat.div_eq_of_lt hlt, Nat.add_zero]
      have hmod : (b + bi) % BPB = bi := by
        rw [Nat.add_mod, hb, Nat.zero_add, Nat.mod_mod, Nat.mod_eq_of_lt hlt]
      have hblock : sb.bblock (b + bi) = sb.bblock b := bblock_eq_iff.mpr hdiv
      simp only [logWrite, bzero, wp_bind, wp_modify, wp_pure]
      refine Or.inr ⟨b + bi, hsize, ?_, rfl, ?_⟩
      · rw [marked, hblock, hmod]
        exact hfree
      · rw [State.alloc, hblock, hmod]
    · exact ih (by rw [Nat.add_mod_right]; exact hb)

theorem balloc_spec (hmeta : ∀ b < sb.datastart, marked sb s b = true) :
    wp (balloc sb) (fun r s' => (r = 0 ∧ s' = s) ∨
      ∃ b ∈ dataArea sb, marked sb s b = false ∧ r = UInt32.ofNat b ∧ s' = s.alloc sb b) (fun _ => False) s := by
  refine wp_mono (ballocFrom_spec _ rfl) (fun r s' h => ?_) fun _ he => he
  rcases h with h | ⟨c, hc, hm, hr, hs⟩
  · exact Or.inl h
  · have hdata : sb.datastart ≤ c := by
      by_contra hlt
      rw [hmeta c (not_le.mp hlt)] at hm
      cases hm
    exact Or.inr ⟨c, ⟨hdata, hc⟩, hm, hr, hs⟩

theorem bfree_spec {b : UInt32} (hm : marked sb s b.toNat = true) :
    wp (bfree sb b) (fun _ s' => s' = s.write (sb.bblock b.toNat)
      (clearBit (s.disk (sb.bblock b.toNat)) (b.toNat % BPB))) (fun _ => False) s := by
  simp only [bfree, bread, wp_bind, wp_get, wp_pure]
  rw [wp_ite]
  exact ⟨fun _ => rfl, fun hno => absurd hm hno⟩

theorem toNat_ofNat_of_mem (hsb : sb.Wf) {b : ℕ} (hb : b ∈ dataArea sb) : (UInt32.ofNat b).toNat = b := by
  have hsmall := hsb.small
  have hlt := hb.2
  rw [UInt32.toNat_ofNat']
  exact Nat.mod_eq_of_lt (by omega)

theorem ofNat_ne_zero_of_mem (hsb : sb.Wf) {b : ℕ} (hb : b ∈ dataArea sb) : UInt32.ofNat b ≠ 0 := by
  intro h
  have hpos := datastart_pos hsb
  have hle := hb.1
  have hnat := congrArg UInt32.toNat h
  rw [toNat_ofNat_of_mem hsb hb, UInt32.toNat_zero] at hnat
  omega

end Balloc

end Xv6.Fs
