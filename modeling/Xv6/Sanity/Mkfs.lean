import Xv6.Spec.Mkfs
import Xv6.Sanity.Slots

/-! The disk of `mkfs` read as a file system: one inode, the root directory, with
one block, and the bitmap to match. -/

namespace Xv6.Fs

open Bytes Ownership

theorem testBit_zero (bi : ℕ) : testBit ByteVec.zero bi = false := by
  rw [testBit_eq, ByteVec.get_zero]
  exact Nat.zero_testBit _

theorem testBit_usedBits {used : ℕ} (hu : used ≤ BPB) (bi : ℕ) : testBit (usedBits used) bi = decide (bi < used) := by
  induction used with
  | zero => exact testBit_zero bi
  | succ n ih =>
    have hstep : usedBits (n + 1) = setBit (usedBits n) n := by
      simp only [usedBits, List.range_succ, List.foldl_append, List.foldl_cons, List.foldl_nil]
    rw [hstep, testBit_setBit _ _ (by omega), ih (by omega)]
    by_cases h : n = bi
    · simp [h]
    · have hiff : bi < n + 1 ↔ bi < n := by omega
      simp [h, hiff]

theorem dinode_get_zero (i : ℕ) : Dinode.get ByteVec.zero i = Dinode.zero := by
  have h16 : ∀ o, (ByteVec.zero : Block).get16 o = 0 := fun o => by
    simp [ByteVec.get16, ByteVec.slice, de16, List.range_succ]
  simp only [Dinode.get, Dinode.zero, h16, ByteVec.get32_zero]
  rfl

/-- The sizes for which `mkfs` works: a root inode, a block for it, and one bitmap block for them. -/
structure Superblock.Fits (sb : Superblock) : Prop where
  wf : sb.Wf
  inode : ROOTINO < sb.ninodes
  block : sb.datastart < sb.size
  bits : sb.datastart + 1 ≤ BPB

section Mkfs

variable {sb : Superblock} (h : sb.Fits)

include h

theorem mkfs_dino {i : ℕ} (hi : i < sb.ninodes) :
    dino sb (.boot (mkfs sb)) i = if i = ROOTINO then rootInode sb else Dinode.zero := by
  have hlt := iblock_lt h.wf hi
  have hle : sb.bmapstart < sb.datastart := by
    rw [Superblock.datastart]
    exact Nat.lt_succ_of_le (Nat.le_add_right _ _)
  have hdisk : (State.boot (mkfs sb)).disk (sb.iblock i) =
      if sb.iblock i = sb.iblock ROOTINO then Dinode.put ByteVec.zero ROOTINO (rootInode sb) else ByteVec.zero := by
    simp only [State.boot, mkfs]
    rw [Function.update_of_ne (by omega), Function.update_of_ne (by omega), Function.update_apply]
  rw [dino, hdisk]
  split_ifs with hb hroot hroot
  · rw [hroot]
    exact dinode_get_put_self _ _ (by decide)
  · have hmod : ROOTINO ≠ i % IPB := fun hm => hroot (by
      have hdiv : i / IPB = ROOTINO / IPB := iblock_eq_iff.mp hb
      have hz : ROOTINO / IPB = 0 := by decide
      rw [← Nat.div_add_mod i IPB, hdiv, hz, ← hm, Nat.mul_zero, Nat.zero_add])
    rw [dinode_get_put_ne _ _ hmod, dinode_get_zero]
  · exact absurd (by rw [hroot]) hb
  · exact dinode_get_zero _

theorem mkfs_marked {b : ℕ} (hb : b < sb.size) : marked sb (.boot (mkfs sb)) b = decide (b < sb.datastart + 1) := by
  have hbits := h.bits
  rw [marked]
  have hblk := bblock_lt hb
  by_cases hfirst : b / BPB = 0
  · have hb0 : sb.bblock b = sb.bmapstart := by rw [Superblock.bblock, hfirst, Nat.zero_add]
    have hdisk : (State.boot (mkfs sb)).disk (sb.bblock b) = usedBits (sb.datastart + 1) := by
      rw [hb0]
      exact Function.update_self _ _ _
    have hmod : b % BPB = b := Nat.mod_eq_of_lt (Nat.lt_of_div_eq_zero (by decide) hfirst)
    rw [hdisk, testBit_usedBits hbits, hmod]
  · have hge : BPB ≤ b := by
      by_contra hlt
      exact hfirst (Nat.div_eq_of_lt (not_le.mp hlt))
    have hne : sb.bblock b ≠ sb.bmapstart := by
      rw [Superblock.bblock]
      omega
    have hdisk : (State.boot (mkfs sb)).disk (sb.bblock b) = ByteVec.zero := by
      have hino := iblock_lt h.wf h.inode
      simp only [State.boot, mkfs]
      rw [Function.update_of_ne hne, Function.update_of_ne (by omega), Function.update_of_ne (by omega)]
    rw [hdisk, testBit_zero]
    exact (decide_eq_false (by omega)).symm

omit h in
theorem boot_dead {disk : ℕ → Block} {ip : Ip} {i : ℕ} : ¬ Live (.boot disk) ip i := fun hl => by
  have := hl.1
  simp [State.boot, Inode.zero] at this

omit h in
theorem boot_cur {disk : ℕ → Block} {i : ℕ} : cur sb (.boot disk) i = dino sb (.boot disk) i :=
  cur_dead fun _ => boot_dead

omit h in
theorem boot_tableInv (disk : ℕ → Block) : TableInv sb (.boot disk) where
  dev := fun _ hr => absurd hr (by simp [State.boot, Inode.zero])
  inum := fun _ hr => absurd hr (by simp [State.boot, Inode.zero])
  uniq := fun _ _ hr => absurd hr (by simp [State.boot, Inode.zero])
  type := fun _ _ hl => absurd hl boot_dead

theorem mkfs_owner (x : Slot) : owner sb (.boot (mkfs sb)) x =
    if x = .direct ROOTINO 0 then some sb.datastart else none := by
  have hnat : (UInt32.ofNat sb.datastart).toNat = sb.datastart := toNat_ofNat_of_mem h.wf ⟨le_rfl, h.block⟩
  have hnz : UInt32.ofNat sb.datastart ≠ 0 := ofNat_ne_zero_of_mem h.wf ⟨le_rfl, h.block⟩
  have hroot : cur sb (.boot (mkfs sb)) ROOTINO = rootInode sb := by
    rw [boot_cur, mkfs_dino h h.inode, if_pos rfl]
  by_cases hx : x.inum = ROOTINO
  · cases x with
    | direct i k =>
      obtain rfl : i = ROOTINO := hx
      by_cases hk : k = 0
      · subst hk
        have hdir : T_DIR ≠ 0 := by decide
        simp [owner, slotAddr, hroot, rootInode, hnat, hnz, h.inode, hdir]
      · simp [owner, slotAddr, hroot, rootInode, hk]
    | entry i j =>
      obtain rfl : i = ROOTINO := hx
      have hlast : (rootInode sb).addrs (Fin.last NDIRECT) = 0 := rfl
      simp [owner, slotAddr, hroot, hlast]
  · have hne : x ≠ .direct ROOTINO 0 := by
      rintro rfl
      exact hx rfl
    rw [if_neg hne]
    by_cases hi : x.inum < sb.ninodes
    · refine slotAddr_free ?_
      rw [boot_cur, mkfs_dino h hi, if_neg hx]
      rfl
    · cases x with
      | direct i k => exact if_neg fun hp => hi hp.1
      | entry i k => exact if_neg fun hp => hi hp.1

theorem mkfs_blockInv : BlockInv sb (.boot (mkfs sb)) ∅ where
  own := {
    inj := fun {x y b} hx hy => by
      rw [mkfs_owner h] at hx hy
      split_ifs at hx hy with h1 h2
      rw [h1, h2]
    owned := fun {x b} hx => by
      rw [mkfs_owner h] at hx
      split_ifs at hx with h1
      obtain rfl := Option.some.inj hx
      refine ⟨⟨le_rfl, h.block⟩, ?_, Set.notMem_empty _⟩
      rw [mkfs_marked h h.block]
      simp
    cover := fun {b} hb hm => by
      rw [mkfs_marked h hb.2, decide_eq_true_eq] at hm
      have := hb.1
      obtain rfl : b = sb.datastart := by omega
      exact Or.inr ⟨.direct ROOTINO 0, by rw [mkfs_owner h, if_pos rfl]⟩
    pending := fun hb => absurd hb (Set.notMem_empty _) }
  metaMarked := fun b hb => by
    rw [mkfs_marked h (hb.trans h.block)]
    simp
    omega

end Mkfs

theorem smallSb_fits : smallSb.Fits := by
  refine ⟨⟨rfl, rfl, by decide, by decide, by decide, by decide⟩, by decide, by decide, by decide⟩

end Xv6.Fs
