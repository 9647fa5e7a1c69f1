import Xv6.Sanity.Tame
import Xv6.Sanity.Reclaim

/-! The state in which the system starts: `ireclaim` turns a disk that may hold orphans into one without. -/

namespace Xv6.Fs

open Wp

/-- A disk the kernel can start from: bitmap and slots agree, no inode has a hole, and entries of directories name inodes
that exist. There may be orphans, but the root is not one. -/
structure Image (sb : Superblock) (disk : ℕ → Block) : Prop where
  wf : sb.Wf
  blk : BlockInv sb (.boot disk) ∅
  size : ∀ i < sb.ninodes, (dino sb (.boot disk) i).type ≠ 0 → (dino sb (.boot disk) i).size.toNat ≤ MAXFILE * BSIZE
  dense : ∀ i < sb.ninodes, (dino sb (.boot disk) i).type ≠ 0 → ∀ o < (dino sb (.boot disk) i).size.toNat,
    owner sb (.boot disk) (fileSlot i (o / BSIZE)) ≠ none
  whole : ∀ i < sb.ninodes, (dino sb (.boot disk) i).type = T_DIR → (dino sb (.boot disk) i).size.toNat % DIRENT = 0
  range : InRange sb.ninodes (node sb (.boot disk))
  root : ROOTINO < sb.ninodes
  dir : (dino sb (.boot disk) ROOTINO).type = T_DIR
  linked : ∀ i, i = 0 ∨ i = ROOTINO → ¬ (dino sb (.boot disk) i).Orphan

section Start

variable {sb : Superblock} {disk : ℕ → Block} {s : State} {i : ℕ} (h : Image sb disk)
  (hp : Passed sb (.first disk) s sb.ninodes)

include h hp

omit h in
theorem Passed.dino_eq (hi : i < sb.ninodes) (ht : (dino sb s i).type ≠ 0) : dino sb s i = dino sb (.boot disk) i := by
  by_cases h0 : i = 0
  · exact hp.others i hi (.inl h0)
  · refine hp.others i hi (.inr (.inr fun ho => ht ?_))
    exact hp.freed i (Nat.pos_of_ne_zero h0) hi ho

theorem Passed.owner_eq (hi : i < sb.ninodes) (ht : (dino sb s i).type ≠ 0) {x : Slot} (hx : x.inum = i) :
    owner sb s x = owner sb (.boot disk) x := by
  have hcur : cur sb s i = cur sb (.boot disk) i := by rw [hp.booted.cur_eq, boot_cur, hp.dino_eq hi ht]
  subst hx
  refine slotAddr_congr_at (fun _ => by rw [hcur]; exact ⟨rfl, rfl⟩) fun _ hal hind => ?_
  exact hp.data _ (h.blk.own.owned (indirect_owned hi hal hind)).1.1

theorem Passed.fsInv : FsInv sb s := by
  have hcur := hp.booted.cur_eq
  refine ⟨h.wf, hp.booted.tab, hp.booted.blk, fun i _ => hcur i, fun i hi ht => ?_, fun i hi ht o ho => ?_, fun i hi hd => ?_⟩
  · rw [hcur] at ht ⊢
    have heq := hp.dino_eq hi ht
    rw [heq] at ht ⊢
    exact h.size i hi ht
  · rw [hcur] at ht ho
    have heq := hp.dino_eq hi ht
    rw [hp.owner_eq h hi ht fileSlot_inum]
    rw [heq] at ht ho
    exact h.dense i hi ht o ho
  · rw [hcur] at hd ⊢
    have ht : (dino sb s i).type ≠ 0 := by
      rw [hd]
      decide
    rw [hp.dino_eq hi ht] at hd ⊢
    exact h.whole i hi hd

theorem Passed.range : InRange sb.ninodes (node sb s) := by
  intro i hi hd de hde
  have hcur := hp.booted.cur_eq i
  have ht : (dino sb s i).type ≠ 0 := by
    rw [node_type, hcur] at hd
    rw [hd]
    decide
  have hsame : cur sb s i = cur sb (.boot disk) i := by rw [hcur, boot_cur, hp.dino_eq hi ht]
  have hents : (node sb s i).ents = (node sb (.boot disk) i).ents := by
    rw [node_type] at hd
    rw [node_ents_dir hd, node_ents_dir (hsame ▸ hd), dirents, dirents, hsame]
    refine List.map_congr_left fun k _ => ?_
    congr 1
    refine List.map_congr_left fun t _ => ?_
    refine fileByte_congr (hp.owner_eq h hi ht fileSlot_inum) fun b hb => hp.data b ?_
    exact (h.blk.own.owned hb).1.1
  rw [hents] at hde
  refine h.range i hi ?_ de hde
  rw [node_type, ← hsame, ← node_type]
  exact hd

/-- After `ireclaim` the root is referred to once, by the first process, and there are no orphans. -/
theorem Passed.ctx : Ctx sb s {(0, ROOTINO)} [] (node sb s) := by
  refine ⟨hp.fsInv h, fun jp => ?_, fun r hr => ?_, fun jp => ?_, nofun, fun i hi ht hn => ?_, fun _ _ => rfl⟩
  · rw [hp.booted.refs, Multiset.map_singleton, Multiset.count_singleton]
  · rw [Multiset.mem_singleton] at hr
    subst hr
    exact hp.booted.root
  · rw [hp.booted.unlocked]
    simp
  · exfalso
    have ht : (dino sb s i).type ≠ 0 := by rwa [node_type, hp.booted.cur_eq] at ht
    have hn : (dino sb s i).nlink = 0 := by rwa [node_nlink (by rw [hp.booted.cur_eq]; exact ht), hp.booted.cur_eq] at hn
    by_cases h0 : i = 0
    · refine h.linked i (.inl h0) ?_
      rw [← hp.dino_eq hi ht]
      exact ⟨ht, hn⟩
    · exact hp.gone (Nat.pos_of_ne_zero h0) hi hi ⟨ht, hn⟩

theorem Passed.rootDir : (node sb s ROOTINO).type = T_DIR := by
  have hsame : dino sb s ROOTINO = dino sb (.boot disk) ROOTINO :=
    hp.others ROOTINO h.root (.inr (.inr (h.linked ROOTINO (.inr rfl))))
  rw [node_type, hp.booted.cur_eq, hsame]
  exact h.dir

theorem Passed.tidy : Tidy sb s {(0, ROOTINO)} (node sb s) := by
  refine ⟨hp.ctx h, hp.range h, fun r hr => ?_⟩
  rw [Multiset.mem_singleton] at hr
  rw [hr, hp.rootDir h]
  decide

end Start

theorem Image.start {sb : Superblock} {disk : ℕ → Block} (h : Image sb disk) :
    ∃ s, ireclaim sb ROOTDEV (.first disk) = .ok ((), s) ∧ Passed sb (.first disk) s sb.ninodes := by
  have h0 : Booted sb (.first disk) := first_booted h.wf h.blk h.root (h.linked ROOTINO (.inr rfl))
  obtain ⟨_, s, hrun, hp⟩ := wp_returns (passes_spec h.wf h0 le_rfl)
  have hroot := h.root
  rw [show 1 + (sb.ninodes - 1) = sb.ninodes by omega] at hp
  exact ⟨s, hrun, hp⟩

/-- The two entries of an empty root directory. -/
theorem dirBlock_inum : ∀ k < BSIZE / DIRENT,
    (Dirent.decode ((dirBlock ROOTINO ROOTINO).slice (DIRENT * k) DIRENT)).inum.toNat ≤ ROOTINO := by decide +kernel

theorem mkfs_image {sb : Superblock} (h : sb.Fits) : Image sb (mkfs sb) := by
  have hdino : ∀ {i}, i < sb.ninodes → (dino sb (.boot (mkfs sb)) i).type ≠ 0 → i = ROOTINO := fun {i} hi ht => by
    by_contra hne
    rw [mkfs_dino h hi, if_neg hne] at ht
    exact ht rfl
  have hroot : dino sb (.boot (mkfs sb)) ROOTINO = rootInode sb := by rw [mkfs_dino h h.inode, if_pos rfl]
  have hsize : (rootInode sb).size.toNat = BSIZE := rfl
  have hslot : fileSlot ROOTINO 0 = .direct ROOTINO 0 := by decide
  refine ⟨h.wf, mkfs_blockInv h, fun i hi ht => ?_, fun i hi ht o ho => ?_, fun i hi hd => ?_, fun i hi hd de hde => ?_, h.inode,
    by rw [hroot]; rfl, fun i hi horph => ?_⟩
  · rw [hdino hi ht, hroot, hsize]
    decide
  · obtain rfl := hdino hi ht
    rw [hroot, hsize] at ho
    rw [Nat.div_eq_of_lt ho, hslot, mkfs_owner h, if_pos rfl]
    nofun
  · obtain rfl := hdino hi (by rw [hd]; decide)
    rw [hroot, hsize]
    rfl
  · rw [node_type] at hd
    have hcur : cur sb (.boot (mkfs sb)) i = dino sb (.boot (mkfs sb)) i := boot_cur
    obtain rfl := hdino hi (by rw [← hcur, hd]; decide)
    rw [node_ents_dir hd, dirents, hcur, hroot, hsize] at hde
    obtain ⟨k, hk, rfl⟩ := List.mem_map.mp hde
    rw [List.mem_range] at hk
    have hk' : DIRENT * k + DIRENT ≤ BSIZE := by
      have : DIRENT * (BSIZE / DIRENT) = BSIZE := rfl
      nlinarith
    have hlt : DIRENT * k < BSIZE := lt_of_lt_of_le (Nat.lt_add_of_pos_right (by decide)) hk'
    have hown : owner sb (.boot (mkfs sb)) (fileSlot ROOTINO (DIRENT * k / BSIZE)) = some sb.datastart := by
      rw [Nat.div_eq_of_lt hlt, hslot, mkfs_owner h, if_pos rfl]
    have hle : sb.bmapstart < sb.datastart := by
      rw [Superblock.datastart]
      exact Nat.lt_succ_of_le (Nat.le_add_right _ _)
    have hdisk : (State.boot (mkfs sb)).disk sb.datastart = dirBlock ROOTINO ROOTINO := by
      simp only [State.boot, mkfs]
      rw [Function.update_of_ne (by omega), Function.update_self]
    rw [← slice_eq_fileSlice hown (by rw [Nat.mod_eq_of_lt hlt]; exact hk'), Nat.mod_eq_of_lt hlt, hdisk]
    exact (dirBlock_inum k hk).trans_lt h.inode
  · rcases hi with rfl | rfl
    · rw [mkfs_dino h (by have := h.inode; omega), if_neg (by decide)] at horph
      exact horph.1 rfl
    · rw [hroot] at horph
      exact absurd horph.2 (by change (1 : Int16) ≠ 0; decide)

end Xv6.Fs
