import Xv6.Sanity.Image
import Xv6.Sanity.SysCalls

/-! Directories are written by the kernel only. A file that can be written is never a directory: this is checked when it is
opened, and the reference of the open file keeps its inode from being freed and used for something else. -/

namespace Xv6.Fs

open Wp Machine

variable {sb : Superblock} {σ σ' : Sys} {L L' : Multiset (Ip × ℕ)} {N N' : ℕ → Node} {c : Call} {f : FileIx} {i : ℕ}

/-- The inode number of a file. -/
def fileInum (σ : Sys) (f : FileIx) : ℕ := (σ.fs.itable (σ.ftable f).ip).inum

def fileType (sb : Superblock) (σ : Sys) (f : FileIx) : Int16 := typeOf sb σ.fs (fileInum σ f)

theorem sysStep_ok (h : sysStep sb c σ = .ok σ') :
    ∃ cp, (σ.procs c.pid).cwd = some cp ∧ c.enabled σ ∧ ∃ r, c.run sb cp σ = .ok (r, σ') := by
  unfold sysStep at h
  cases hcwd : (σ.procs c.pid).cwd with
  | none =>
    rw [hcwd] at h
    cases h
  | some cp =>
    simp only [hcwd] at h
    split_ifs at h with hen
    refine ⟨cp, rfl, hen, ?_⟩
    cases hrun : c.run sb cp σ with
    | ok r =>
      rw [hrun] at h
      exact ⟨r.1, by rw [← Outcome.ok.inj h]⟩
    | error e =>
      rw [hrun] at h
      cases e <;> cases h

theorem SysInv.step (h : SysInv sb σ L N) (hroot : ROOTINO < sb.ninodes) (hs : sysStep sb c σ = .ok σ') : Done sb c σ L N σ' := by
  obtain ⟨cp, hcwd, hen, r, hrun⟩ := sysStep_ok hs
  exact wp_ok (m := c.run sb cp) (h.run hroot hcwd hen) hrun

theorem start_inv {s : State} (h : Tidy sb s {(0, ROOTINO)} N) : SysInv sb (.start s) {(0, ROOTINO)} N := by
  refine ⟨h, ?_, fun f _ => rfl, fun f hf => absurd rfl hf⟩
  rw [ptrs_start]
  rfl

/-- The invariant in every state of a run. -/
theorem run_sysInv {σ0 : Sys} {calls : List Call} (h : SysInv sb σ0 L N) (hroot : ROOTINO < sb.ninodes)
    (hrun : Run (sysStep sb) Free σ0 calls σ) : ∃ L N, SysInv sb σ L N :=
  hrun.inv (I := fun σ => ∃ L N, SysInv sb σ L N) ⟨L, N, h⟩ fun σ c σ' hi _ hs => by
    obtain ⟨L, N, hi⟩ := hi
    obtain ⟨L', N', hi', -⟩ := hi.step hroot hs
    exact ⟨L', N', hi'⟩

theorem SysInv.fileInum_eq (h : SysInv sb σ L N) (hi : ((σ.ftable f).ip, i) ∈ L) : Fs.fileInum σ f = i := h.tidy.ctx.inum _ hi

theorem SysInv.fileType_eq (h : SysInv sb σ L N) (hi : ((σ.ftable f).ip, i) ∈ L) : fileType sb σ f = (N i).type := by
  rw [fileType, h.fileInum_eq hi, h.tidy.typeOf (h.tidy.ctx.lt hi)]

theorem SysInv.dirents_eq (h : SysInv sb σ L N) (hi : i < sb.ninodes) (hd : typeOf sb σ.fs i = T_DIR) :
    dirents sb σ.fs i = (N i).ents := by
  rw [h.tidy.typeOf hi] at hd
  rw [← h.tidy.ctx.node i hi, node_ents_dir]
  rw [h.tidy.ctx.type hi]
  exact hd

theorem SysInv.gen_eq (h : SysInv sb σ L N) (hi : i < sb.ninodes) : σ.fs.gen i = (N i).gen := by
  rw [← h.tidy.ctx.node i hi, node_gen]

/-- **User writes do not reach directories.** Start from any image and let processes make calls in any order. No open file
that can be written is a directory; a call leaves the inode of a file that stays open as it is, of the same type and the same
allocation; and what a call does to a directory is to add an entry in a free place, if it is one of those that use `dirlink`,
or to clear an entry, if it is `unlink`. -/
theorem directories_not_written (sb : Superblock) (disk : ℕ → Block) (h : Image sb disk) :
    ∃ s0, ireclaim sb ROOTDEV (.first disk) = .ok ((), s0) ∧ ∀ calls σ, Run (sysStep sb) Free (.start s0) calls σ →
      (∀ f, (σ.ftable f).type ≠ .none → (σ.ftable f).writable = true → fileType sb σ f ≠ T_DIR) ∧
      ∀ c σ', sysStep sb c σ = .ok σ' →
        (∀ f, (σ.ftable f).type ≠ .none → (σ'.ftable f).type ≠ .none → fileInum σ' f = fileInum σ f ∧
          fileType sb σ' f = fileType sb σ f ∧ σ'.fs.gen (fileInum σ f) = σ.fs.gen (fileInum σ f)) ∧
        ∀ i < sb.ninodes, typeOf sb σ.fs i = T_DIR → typeOf sb σ'.fs i = T_DIR →
          DirChange c (dirents sb σ.fs i) (dirents sb σ'.fs i) := by
  obtain ⟨s0, hrun, hp⟩ := h.start
  have h0 : Tidy sb s0 {(0, ROOTINO)} (node sb s0) := hp.tidy h
  refine ⟨s0, hrun, fun calls σ hcalls => ?_⟩
  obtain ⟨L, N, hi⟩ := run_sysInv (start_inv h0) h.root hcalls
  refine ⟨fun f hopen hw => ?_, fun c σ' hs => ?_⟩
  · obtain ⟨i, hf⟩ := hi.file hopen
    rw [hi.fileType_eq hf]
    exact hi.ro f hopen hw i hf
  obtain ⟨L', N', hi', hm⟩ := hi.step h.root hs
  refine ⟨fun f hopen hopen' => ?_, fun i hlt hd hd' => ?_⟩
  · obtain ⟨i, hf⟩ := hi.file hopen
    obtain ⟨hip, hkept⟩ := hm.files f hopen hopen'
    obtain ⟨hf', htype, hgen⟩ := hkept i hf
    rw [← hip] at hf'
    have hlt := hi.tidy.ctx.lt hf
    rw [hi.fileInum_eq hf, hi'.fileInum_eq hf', hi.fileType_eq hf, hi'.fileType_eq hf', hi.gen_eq hlt, hi'.gen_eq hlt]
    exact ⟨rfl, htype, hgen⟩
  · rw [hi.dirents_eq hlt hd, hi'.dirents_eq hlt hd']
    rw [hi.tidy.typeOf hlt] at hd
    rw [hi'.tidy.typeOf hlt] at hd'
    exact hm.dirs i hd hd'

/-- A file and a directory are made and opened; a child shares the file and writes to it; the file gets a second name and
loses the first, and its parent closes it. -/
def shareFile : List Call :=
  [.open 0 (some [47, 102]) 0x202, .mkdir 0 (some [47, 100]), .open 0 (some [47, 100]) 0, .fork 0 1, .dup 1 0,
    .write 1 0 (fun _ => some 7) 5, .link 0 (some [47, 102]) (some [47, 103]), .unlink 1 (some [47, 102]), .close 0 0]

theorem shareFile_runs : ((ireclaim smallSb ROOTDEV (.first (mkfs smallSb))).toOption.any fun r =>
    decide ((execIf (sysStep smallSb) (fun _ _ => true) shareFile (.start r.2)).Sat fun σ =>
      (σ.ftable 0).type ≠ .none ∧ (σ.ftable 0).writable = true ∧ fileType smallSb σ 1 = T_DIR)) = true := by
  decide +kernel

theorem directories_not_written_shareFile : ∃ s0 σ, Run (sysStep smallSb) Free (.start s0) shareFile σ ∧
    (σ.ftable 0).writable = true ∧ fileType smallSb σ 0 ≠ T_DIR ∧ fileType smallSb σ 1 = T_DIR := by
  obtain ⟨s0, h0, h⟩ := directories_not_written smallSb (mkfs smallSb) (mkfs_image smallSb_fits)
  have hruns := shareFile_runs
  rw [h0] at hruns
  obtain ⟨σ, hσ, hopen, hw, hdir⟩ := (of_decide_eq_true hruns).ok
  have hrun := (run_of_execIf hσ).free
  exact ⟨s0, σ, hrun, hw, (h _ _ hrun).1 0 hopen hw, hdir⟩

end Xv6.Fs
