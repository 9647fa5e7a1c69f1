import Mathlib
import Xv6.Proofs.AddressBound
import Xv6.Proofs.ForkIsolation
import Xv6.Sanity.UserCopy

/-! `copyout` and `copyin` on the memory of the running process: for any address and any length they succeed if the pages are
there or can be had, and then they copy the bytes that they are to copy; they touch nothing else. -/

namespace Xv6.Vm

open Wp Machine

variable {K : Kernel} {roots pend : Set ℕ} {s : Mem} {r sz : ℕ}

/-- `copyout` and `copyin` are exact, for every address and length. -/
theorem user_copies_exact (h : Pages K roots pend s) (hr : r ∈ roots) (hk : KernelOnly (leaf s.mem r)) (hsz : sz ≤ TRAPFRAME)
    (va : ℕ) :
    (∀ src, ∃ done s', copyout K r sz r va src s = .ok (done, s') ∧
      (done = true ↔ Accessible canWrite s r sz va src.length) ∧
      (done = true → (∀ k < src.length, userByte s' r sz (va + k) = src[k]?) ∧
        ∃ s'', copyin K r sz r va src.length s' = .ok (some src, s'')) ∧
      (∀ x, ¬ (va ≤ x ∧ x < va + src.length) → userByte s' r sz x = userByte s r sz x) ∧
      Frame roots r va src.length s s') ∧
    ∀ len, ∃ res s', copyin K r sz r va len s = .ok (res, s') ∧
      (res.isSome = true ↔ Accessible canRead s r sz va len) ∧
      (∀ bs, res = some bs → bs.length = len ∧ ∀ k < len, userByte s r sz (va + k) = bs[k]?) ∧
      ∀ x, userByte s' r sz x = userByte s r sz x := by
  refine ⟨fun src => ?_, copyin_exact hr hsz h hk va⟩
  obtain ⟨done, s', hs', hc⟩ := wp_returns (copyoutFrom_exact hr hsz src.length va src le_rfl h hk)
  refine ⟨done, s', hs', hc.done_iff, fun hd => ?_, hc.outside, hc.frame⟩
  have hbytes : ∀ k < src.length, userByte s' r sz (va + k) = src[k]? := by
    intro k hlt
    rw [hc.bytes hd, overlay, if_pos (by omega), Nat.add_sub_cancel_left]
  exact ⟨hbytes, copyin_present hr hsz hc.pages hc.kernel (hc.there hd) hbytes⟩

/-- In a state of the system a live process has such a page table. -/
theorem Inv.copies {σ : St} {p : Slot} (h : Inv K ∅ σ) (hp : (σ.proc p).state = .live) :
    ∃ r, (σ.proc p).pagetable = some r ∧ r ∈ Vm.roots σ.proc ∧ KernelOnly (leaf σ.m.mem r) ∧ (σ.proc p).sz ≤ TRAPFRAME := by
  obtain ⟨r, f, hr, -, hmem, hsz, -⟩ := h.live hp
  exact ⟨r, hr, hmem, h.kernelOnly hr, hsz⟩

/-- A process with two pages of lazily allocated memory. -/
def lazyPages : List Act := [.userinit, .sbrk 0 8192 0]

theorem lazyPages_ok : (execIf (step smallKernel) (fun σ a => decide (Modest σ a)) lazyPages (boot smallFreelist [])).Sat fun σ =>
    (σ.proc 0).state = .live ∧ (copyoutTo smallKernel 0 4090 [1, 2, 3, 4, 5, 6, 7, 8, 9, 10] σ).toOption.map Prod.fst = some true := by
  decide +kernel

/-- Ten bytes across the two pages, neither of which is there. -/
theorem user_copies_exact_lazyPages : ∃ σ r s' s'', Run (step smallKernel) Modest (boot smallFreelist []) lazyPages σ ∧
    (σ.proc 0).pagetable = some r ∧
    copyout smallKernel r (σ.proc 0).sz r 4090 [1, 2, 3, 4, 5, 6, 7, 8, 9, 10] σ.m = .ok (true, s') ∧
    userByte s' r (σ.proc 0).sz 4096 = some 7 ∧ userByte s' r (σ.proc 0).sz 4089 = userByte σ.m r (σ.proc 0).sz 4089 ∧
    copyin smallKernel r (σ.proc 0).sz r 4090 10 s' = .ok (some [1, 2, 3, 4, 5, 6, 7, 8, 9, 10], s'') := by
  obtain ⟨σ, hσ, hst, hdone⟩ := lazyPages_ok.ok
  have hrun := (run_of_execIf hσ).mono fun _ _ h => of_decide_eq_true h
  have hinv : Inv smallKernel ∅ σ := modest_inv (boot_inv (by decide +kernel) mem_smallFreelist) hrun
  obtain ⟨r, hr, hmem, hk, hsz⟩ := hinv.copies hst
  obtain ⟨done, s', hs', -, hback, hout, -⟩ :=
    (user_copies_exact hinv.pages hmem hk hsz 4090).1 [1, 2, 3, 4, 5, 6, 7, 8, 9, 10]
  have htrue : done = true := by
    simp only [copyoutTo, pagetableOf, getProc, bind, StateT.bind, get, getThe, MonadStateOf.get, StateT.get, pure, StateT.pure,
      Except.bind, Except.pure, hr, vm, hs', Except.map, Except.toOption, Option.map_some, Option.some.injEq] at hdone
    exact hdone
  subst htrue
  obtain ⟨hbytes, s'', hs''⟩ := hback rfl
  exact ⟨σ, r, s', s'', hrun, hr, hs', hbytes 6 (by decide), hout 4089 (by decide), hs''⟩

end Xv6.Vm
