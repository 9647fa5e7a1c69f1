import Xv6.Proofs.DirectoryWrites

/-! Between system calls: no reference to an inode is lost or left over, no lock is left held, and the disk is consistent. -/

namespace Xv6.Fs

open Machine

variable {σ : Sys} {ip : Ip}

/-- The open files of the inode at `ip`. -/
def filesOf (σ : Sys) (ip : Ip) : Finset FileIx := {f | (σ.ftable f).type ≠ .none ∧ (σ.ftable f).ip = ip}

/-- The processes whose working directory is the inode at `ip`. -/
def cwdsOf (σ : Sys) (ip : Ip) : Finset Pid := {p | (σ.procs p).cwd = some ip}

theorem count_ptrs : (ptrs σ).count ip = (filesOf σ ip).card + (cwdsOf σ ip).card := by
  rw [ptrs, Multiset.count_add, filePtrs, cwdPtrs, Multiset.count_sum', Multiset.count_sum', filesOf, cwdsOf, Finset.card_filter,
    Finset.card_filter]
  refine congrArg₂ (· + ·) (Finset.sum_congr rfl fun f _ => ?_) (Finset.sum_congr rfl fun p _ => ?_)
  · unfold File.ptr
    split_ifs <;> simp_all [eq_comm]
  · unfold Proc.ptr
    cases (σ.procs p).cwd <;> simp [Multiset.count_singleton, eq_comm]

/-- The system starts from the disk, and `P` holds after any calls of any processes. -/
def Between (sb : Superblock) (disk : ℕ → Block) (P : Sys → Prop) : Prop :=
  ∃ s0, ireclaim sb ROOTDEV (.first disk) = .ok ((), s0) ∧ ∀ calls σ, Run (sysStep sb) Free (.start s0) calls σ → P σ

theorem Image.between {sb : Superblock} {disk : ℕ → Block} (h : Image sb disk) {P : Sys → Prop}
    (hP : ∀ σ L N, SysInv sb σ L N → P σ) : Between sb disk P := by
  obtain ⟨s0, hrun, hp⟩ := h.start
  refine ⟨s0, hrun, fun calls σ hcalls => ?_⟩
  obtain ⟨L, N, hi⟩ := run_sysInv (start_inv (hp.tidy h)) h.root hcalls
  exact hP σ L N hi

/-- **Inode references.** Start from any image and let processes make calls in any order. Between calls the reference count of
every entry of the inode table is the number of open files and working directories that refer to it, and its lock is free; no
inode has two entries in use; what is referred to is allocated; and an allocated inode that no directory links has an open file
or a working directory through which it will be freed. -/
theorem inode_references_exact (sb : Superblock) (disk : ℕ → Block) (h : Image sb disk) : Between sb disk fun σ =>
    (∀ ip, (σ.fs.itable ip).ref = (filesOf σ ip).card + (cwdsOf σ ip).card ∧ (σ.fs.itable ip).locked = false) ∧
    (∀ ip, 0 < (σ.fs.itable ip).ref → (node sb σ.fs (σ.fs.itable ip).inum).type ≠ 0 ∧
      ∀ jp, 0 < (σ.fs.itable jp).ref → (σ.fs.itable jp).inum = (σ.fs.itable ip).inum → jp = ip) ∧
    ∀ i < sb.ninodes, (node sb σ.fs i).type ≠ 0 → (node sb σ.fs i).nlink = 0 →
      ∃ ip, (σ.fs.itable ip).inum = i ∧ ((filesOf σ ip).Nonempty ∨ (cwdsOf σ ip).Nonempty) := by
  refine h.between fun σ L N hi => ?_
  have hc := hi.tidy.ctx
  have href : ∀ ip, (σ.fs.itable ip).ref = (filesOf σ ip).card + (cwdsOf σ ip).card := fun ip => by
    rw [hc.ref, hi.refs, count_ptrs]
  refine ⟨fun ip => ⟨href ip, ?_⟩, fun ip hpos => ⟨?_, fun jp hpos' hsame => ?_⟩, fun i hlt htype hlink => ?_⟩
  · rw [← Bool.not_eq_true, hc.lock]
    exact List.not_mem_nil
  · rw [hc.node _ (hc.lt (hc.ref_of_pos hpos))]
    exact hi.tidy.alive _ (hc.ref_of_pos hpos)
  · exact hc.uniq (hsame ▸ hc.ref_of_pos hpos') (hc.ref_of_pos hpos)
  · rw [hc.node i hlt] at htype hlink
    obtain ⟨⟨ip, j⟩, hL, rfl, -⟩ := hc.held i hlt htype hlink
    have hpos := (hc.at hL).1
    rw [href, Nat.add_pos_iff_pos_or_pos, Finset.card_pos, Finset.card_pos] at hpos
    exact ⟨ip, hc.inum _ hL, hpos⟩

/-- The file that a child holds open after its parent has closed it. -/
theorem inode_references_exact_shareFile : ∃ s0 σ, Run (sysStep smallSb) Free (.start s0) shareFile σ ∧
    0 < (σ.fs.itable (σ.ftable 0).ip).ref := by
  obtain ⟨s0, h0, h⟩ := inode_references_exact smallSb (mkfs smallSb) (mkfs_image smallSb_fits)
  have hruns := shareFile_runs
  rw [h0] at hruns
  obtain ⟨σ, hσ, hopen, -⟩ := (of_decide_eq_true hruns).ok
  have hrun := (run_of_execIf hσ).free
  have hf : 0 ∈ filesOf σ (σ.ftable 0).ip := by simp [filesOf, hopen]
  refine ⟨s0, σ, hrun, ?_⟩
  rw [((h _ _ hrun).1 _).1]
  exact Nat.add_pos_left (Finset.card_pos.mpr ⟨0, hf⟩) _

/-- **The disk is consistent.** Between calls a data block is marked in the bitmap iff exactly one inode has it, in exactly one
place; and every allocated inode is on disk as it is in memory, is not too large, has a block for each of its bytes and, if it
is a directory, whole entries of existing numbers. -/
theorem disk_consistent (sb : Superblock) (disk : ℕ → Block) (h : Image sb disk) : Between sb disk fun σ =>
    (∀ b ∈ dataArea sb, marked sb σ.fs b = true ↔ ∃! x, owner sb σ.fs x = some b) ∧
    ∀ i < sb.ninodes, (cur sb σ.fs i).type ≠ 0 → dino sb σ.fs i = cur sb σ.fs i ∧
      (cur sb σ.fs i).size.toNat ≤ MAXFILE * BSIZE ∧
      (∀ o < (cur sb σ.fs i).size.toNat, owner sb σ.fs (fileSlot i (o / BSIZE)) ≠ none) ∧
      ((cur sb σ.fs i).type = T_DIR → (cur sb σ.fs i).size.toNat % DIRENT = 0 ∧
        ∀ de ∈ dirents sb σ.fs i, de.inum.toNat < sb.ninodes) := by
  refine h.between fun σ L N hi => ?_
  have hinv := hi.tidy.ctx.inv
  refine ⟨fun b hb => hinv.blk.own.marked_iff hb, fun i hlt ht => ⟨(hinv.clean i hlt).symm, hinv.size i hlt ht,
    hinv.dense i hlt ht, fun hd => ⟨hinv.whole i hlt hd, fun de hde => ?_⟩⟩⟩
  rw [hinv.clean i hlt] at hd
  rw [hi.dirents_eq hlt hd] at hde
  exact hi.tidy.range i hlt (by rw [← hi.tidy.typeOf hlt]; exact hd) de hde

/-- The disk that `mkfs` makes, after one run. -/
theorem disk_consistent_shareFile : ∃ s0, ∀ σ, Run (sysStep smallSb) Free (.start s0) shareFile σ →
    ∀ b ∈ dataArea smallSb, marked smallSb σ.fs b = true ↔ ∃! x, owner smallSb σ.fs x = some b := by
  obtain ⟨s0, -, h⟩ := disk_consistent smallSb (mkfs smallSb) (mkfs_image smallSb_fits)
  exact ⟨s0, fun σ hrun => (h _ σ hrun).1⟩

end Xv6.Fs
