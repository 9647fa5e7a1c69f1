import Xv6.Lib.Frame
import Xv6.Proofs.DirectoryWrites
import Xv6.Sanity.Contents

/-! What is left of a write that runs into memory that is not there. `copyin` copies page by page straight into the buffer
of the block, and what it has copied before it fails stays there, outside of any transaction. -/

namespace Xv6.Fs

open Wp Machine Bytes

variable {sb : Superblock} {s s' : State} {ip : Ip} {i : ℕ} {src : Src} {mem : ℕ → Option UInt8}

section Commit

/-- The disk once the transaction has committed, if it holds `home` now: the log brings the blocks passed to `log_write`. -/
def committed (home : ℕ → Block) (s : State) : ℕ → Block := fun b => if b ∈ s.logged then s.disk b else home b

/-- What is not in the transaction is cached as it is on the disk. -/
def Coherent (home : ℕ → Block) (s : State) : Prop := ∀ b ∉ s.logged, s.disk b = home b

variable {home : ℕ → Block}

theorem Coherent.committed (h : Coherent home s) : committed home s = s.disk := by
  funext b
  rw [Fs.committed]
  split_ifs with hb
  · rfl
  · exact (h b hb).symm

end Commit

/-- The first byte that cannot be read, if there is one, is the first of all or goes to the start of a block. -/
def FaultsAtBlock (mem : ℕ → Option UInt8) (off n : ℕ) : Prop :=
  ∀ t < n, mem t = none → (∀ k < t, (mem k).isSome = true) → t = 0 ∨ (off + t) % BSIZE = 0

theorem FaultsAtBlock.clean {off n : ℕ} (h : FaultsAtBlock mem off n) : (Src.user mem).Clean n 0 off := by
  intro t m _ hm hhas _ hfit hno
  have hex : ∃ k, k < m ∧ mem (t + k) = none := by
    by_contra hall
    rw [Src.copy_iff.mpr fun k hk => ?_] at hno
    · cases hno
    · exact Option.isSome_iff_ne_none.mpr fun hk0 => hall ⟨k, hk, hk0⟩
  obtain ⟨hlt, hnone⟩ := Nat.find_spec hex
  set k0 := Nat.find hex with hk0
  have hbefore : ∀ l < t + k0, (mem l).isSome = true := fun l hl => by
    by_cases hlt' : l < t
    · exact hhas l (Nat.zero_le l) hlt'
    · refine Option.isSome_iff_ne_none.mpr fun hl0 => ?_
      have hmin := Nat.find_min hex (show l - t < k0 by omega)
      rw [show t + (l - t) = l by omega] at hmin
      exact hmin ⟨by omega, hl0⟩
  rw [Nat.sub_zero] at hfit
  -- a fault inside the chunk would not be at the start of a block
  have hzero : k0 = 0 := by
    rcases h (t + k0) (by omega) hnone hbefore with hz | hz
    · omega
    · rw [← Nat.add_assoc, Nat.add_mod, Nat.mod_eq_of_lt (show k0 < BSIZE by omega), Nat.mod_eq_of_lt (by omega)] at hz
      omega
  rw [hzero, Nat.add_zero] at hnone
  obtain ⟨l, rfl⟩ := Nat.exists_eq_succ_of_ne_zero (show m ≠ 0 by omega)
  simp [Src.copy, List.range_succ_eq_map, hnone]

/-- A buffer of a block, up to the end of the memory. -/
def blockEnd : ℕ → Option UInt8 := fun t => if t < 1024 then some 7 else none

def reads (s : State) (bytes : List UInt8) : Bool := (readi smallSb 1 .kernel 0 2 s).toOption.any fun q => q.1 = (2, bytes)

end Xv6.Fs
