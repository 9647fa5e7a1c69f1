import Xv6.Proofs.DirectoryWrites
import Xv6.Sanity.Contents

/-! A file is an array of bytes: `readi` returns a slice of it and `writei` replaces one, up to the block maps and the
transactions behind it. -/

namespace Xv6.Fs

open Wp Machine

variable {sb : Superblock} {s : State} {ip : Ip} {i : ℕ}

section Calls

theorem writei_has (src : Src) (off n : UInt32) :
    wp (writei sb ip src off n) (fun r _ => ∀ t : ℕ, (t : ℤ) < r → src.Has t) (fun _ => True) s := by
  simp only [writei, getInode, wp_bind, wp_get, wp_pure]
  have hneg : ∀ t : ℕ, (t : ℤ) < -1 → src.Has t := fun t ht => absurd ht (by omega)
  rw [wp_ite]
  refine ⟨fun _ => hneg, fun _ => ?_⟩
  rw [wp_ite]
  refine ⟨fun _ => hneg, fun _ => ?_⟩
  rw [wp_bind]
  refine wp_mono (writeiFrom_has _ le_rfl (Nat.zero_le _)) (fun r s1 h1 => ?_) fun _ => id
  have hhas : ∀ t : ℕ, (t : ℤ) < r.1 → src.Has t := fun t ht => h1.2 t (Nat.zero_le t) (by omega)
  rw [wp_bind]
  refine wp_mono wp_true (fun _ s2 _ => ?_) fun _ => id
  rw [wp_bind]
  exact wp_mono wp_true (fun _ s3 _ => hhas) fun _ => id

/-- When `writei` refuses. -/
def WriteRefused (size off n : UInt32) : Prop := off > size ∨ off + n < off ∨ MAXFILE * BSIZE < (off + n).toNat

theorem writeRefused_iff (size off n : UInt32) :
    WriteRefused size off n ↔ ¬ (off ≤ size ∧ off.toNat + n.toNat ≤ MAXFILE * BSIZE) := by
  have hmax : MAXFILE * BSIZE < 2 ^ 32 := by decide
  have hoff := off.toNat_lt
  have hn := n.toNat_lt
  simp only [WriteRefused, GT.gt, UInt32.lt_iff_toNat_lt, UInt32.le_iff_toNat_le, UInt32.toNat_add]
  omega

end Calls

/-- **File contents are a byte array.** For every inode with a well-formed block map. `writei` refuses, and changes nothing,
exactly when the offset is past the end, or the end of the write wraps or is past the largest file. Else it returns how many
bytes it has written; all of them have been read from the source. If the source can be read the contents are the old ones
with just these bytes replaced, be it all of them or, for want of a free block, fewer; and no write changes another inode.
`readi` returns the slice of the contents, up to their end. -/
theorem file_is_byte_array (h : WellMapped sb s ip i) :
    (∀ src off n, src.Holds n.toNat → ∃ r s', writei sb ip src off n s = .ok (r, s') ∧ WellMapped sb s' ip i ∧
      (r = -1 ↔ WriteRefused (cur sb s i).size off n) ∧ (r = -1 → s' = s) ∧
      (r ≠ -1 → 0 ≤ r ∧ r ≤ n.toNat ∧ (cur sb s' i).size.toNat = max (cur sb s i).size.toNat (off.toNat + r.toNat)) ∧
      (r = n.toNat → src.Readable n.toNat ∧ contents sb s' i = overwrite (contents sb s i) off.toNat (src.bytes n.toNat)) ∧
      (src.Readable n.toNat → r ≠ -1 → contents sb s' i = overwrite (contents sb s i) off.toNat (src.bytes r.toNat)) ∧
      ∀ j < sb.ninodes, j ≠ i → (cur sb s j).size.toNat ≤ MAXFILE * BSIZE → contents sb s' j = contents sb s j) ∧
    ∀ dst off n, dst.Takes n.toNat → readi sb ip dst off n s = .ok
      (if off > (cur sb s i).size ∨ off + n < off then (0, [])
        else ((((contents sb s i).drop off.toNat).take n.toNat).length, ((contents sb s i).drop off.toNat).take n.toNat), s) := by
  have hcur := h.tab.cur_live h.live
  refine ⟨fun src off n hholds => ?_, fun dst off n hdst => ?_⟩
  · obtain ⟨r, s', hrun, hspec, hhas⟩ :=
      wp_returns (wp_mono (wp_and (writei_spec h.wf h.tab h.blk h.live src off n) (writei_has src off n)) (fun _ _ => id)
        fun _ he => he.1)
    rw [← hcur, ← writeRefused_iff] at hspec
    refine ⟨r, s', hrun, ?_⟩
    rcases hspec with ⟨hbad, rfl, rfl⟩ | ⟨hoff, hmax, tot, rfl, hw⟩
    · refine ⟨h, ⟨fun _ => hbad, fun _ => rfl⟩, fun _ => rfl, fun hne => absurd rfl hne, fun hn => ?_, fun _ hne => absurd rfl hne,
        fun _ _ _ _ => rfl⟩
      omega
    · have hle := hw.le
      rw [UInt32.le_iff_toNat_le] at hoff
      have hgood : ¬ WriteRefused (cur sb s i).size off n := by
        rw [writeRefused_iff, not_not, UInt32.le_iff_toNat_le]
        exact ⟨hoff, hmax⟩
      have hread : src.Readable n.toNat → contents sb s' i = overwrite (contents sb s i) off.toNat (src.bytes tot) := fun hread =>
        hw.contents_eq h.tab h.live hoff hmax h.size hholds fun o ho hr => hw.exact hread.clean i o ho (.inr hr)
      refine ⟨h.wrote hw hoff hmax, ⟨fun hr => by omega, fun hr => absurd hr hgood⟩, fun hr => by omega,
        fun _ => ⟨by omega, by omega, by rw [Int.toNat_natCast]; exact hw.size_eq h.tab h.live hmax⟩, fun hn => ?_,
        fun hr _ => by rw [Int.toNat_natCast]; exact hread hr, fun j hj hji hsz => hw.contents_ne h.tab h.live hj hji hsz⟩
      obtain rfl : tot = n.toNat := by omega
      have hr := (Src.readable_iff hholds).mpr fun t ht => hhas t (by omega)
      exact ⟨hr, hread hr⟩
  · simp only [h.readi hdst, readOf, contents_length, GT.gt, UInt32.lt_iff_toNat_lt]

/-- A process creates a file and opens it. -/
def emptyFile : List Call := [.open 0 (some [47, 102]) 0x202]

theorem emptyFile_runs : ((ireclaim smallSb ROOTDEV (.first (mkfs smallSb))).toOption.any fun r =>
    decide ((execIf (sysStep smallSb) (fun _ _ => true) emptyFile (.start r.2)).Sat fun σ =>
      Live σ.fs 1 2 ∧ (cur smallSb σ.fs 2).size = 0 ∧
        (writei smallSb 1 (.kernel [104, 105]) 0 2 σ.fs).toOption.any (fun w => w.1 = 2) = true)) = true := by
  decide +kernel

/-- A file that a process has just created, and `"hi"` written to it. -/
theorem file_is_byte_array_emptyFile : ∃ s s', WellMapped smallSb s 1 2 ∧
    writei smallSb 1 (.kernel [104, 105]) 0 2 s = .ok (2, s') ∧ contents smallSb s' 2 = [104, 105] := by
  obtain ⟨s0, h0, hp⟩ := (mkfs_image smallSb_fits).start
  have hruns := emptyFile_runs
  rw [h0] at hruns
  obtain ⟨σ, hσ, hl, hsize, hret⟩ := (of_decide_eq_true hruns).ok
  obtain ⟨L, N, hi⟩ := run_sysInv (start_inv (hp.tidy (mkfs_image smallSb_fits))) (by decide) (run_of_execIf hσ).free
  have hwm := hi.tidy.ctx.inv.wellMapped hl
  obtain ⟨r, s', hw, -, -, -, -, hn, -⟩ := (file_is_byte_array hwm).1 (.kernel [104, 105]) 0 2 rfl
  rw [hw] at hret
  obtain rfl : r = 2 := of_decide_eq_true hret
  refine ⟨σ.fs, s', hwm, hw, ?_⟩
  rw [(hn rfl).2, contents, hsize]
  rfl

end Xv6.Fs
