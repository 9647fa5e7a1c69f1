import Mathlib
import Xv6.Spec.Sysfile
import Xv6.Sanity.Tame
import Xv6.Proofs.DirectoryMap

/-! Path resolution. `skipelem` takes a path apart into its components, `namei` is the walk along them, and `nameiparent`
stops one component earlier; each leaves one reference more, to the inode it returns. A process whose working directory has
been removed can have `..` lead to an inode that is free by now: then `namei` panics where it ought to fail. -/

namespace Xv6.Fs

open Wp Machine

variable {sb : Superblock} {s s' : State} {L : Multiset (Ip × ℕ)} {N : ℕ → Node} {cp : Ip} {c : ℕ}

section Walks

variable {i j : ℕ} {x : List UInt8} {es : List (List UInt8)}

end Walks

/-- At least two entries of the inode table are free. -/
def Roomy (s : State) : Prop := 2 ≤ (Finset.univ.filter fun jp => (s.itable jp).ref = 0).card

theorem Ctx.room {K : List Ip} (h : Ctx sb s L K N) (hroom : Roomy s) : (L.map Prod.fst).toFinset.card + 2 ≤ NINODE := by
  have hheld : (L.map Prod.fst).toFinset = Finset.univ.filter fun jp => ¬ (s.itable jp).ref = 0 := by
    ext jp
    rw [Multiset.mem_toFinset, ← Multiset.count_pos, ← h.ref, Finset.mem_filter, Nat.pos_iff_ne_zero]
    exact ⟨fun hp => ⟨Finset.mem_univ _, hp⟩, fun hp => hp.2⟩
  have hsum := Finset.card_filter_add_card_filter_not (s := Finset.univ) fun jp => (s.itable jp).ref = 0
  rw [Finset.card_univ, Fintype.card_fin] at hsum
  unfold Roomy at hroom
  rw [hheld]
  omega

section Names

variable (h : Tidy sb s L N) (hr : Ready sb L N cp c) (hlive : (N ROOTINO).type ≠ 0) (hclosed : Closed sb.ninodes N)
  (hroom : Roomy s) (path : List UInt8)
include h hr hlive hclosed hroom

end Names

end Xv6.Fs
