import Xv6.Proofs.AddressBound
import Xv6.Sanity.Whereabouts

/-! Every page of the allocator has one owner, in every run. -/

namespace Xv6.Vm

open Wp Machine Holders

variable {K : Kernel} {σ u : St} {freelist others : List ℕ} {as : List Act}

/-- If the processes but `c` have as many pages as before and `c` has none, then as many pages are free as before. -/
theorem Inv.free_count {c : Slot} (h : Inv K ∅ σ) (h' : Inv K ∅ u) (hc : (σ.proc c).state = .unused) (hc' : (u.proc c).state = .unused)
    (hsame : ∀ p ≠ c, (pagesOf u p).ncard = (pagesOf σ p).ncard) (ho : u.others.length = σ.others.length) :
    u.m.freelist.length = σ.m.freelist.length := by
  have hsum : ∑ p, (pagesOf u p).ncard = ∑ p, (pagesOf σ p).ncard := by
    refine Finset.sum_congr rfl fun p _ => ?_
    by_cases hp : p = c
    · rw [hp, h.pagesOf_unused hc, h'.pagesOf_unused hc']
    · exact hsame p hp
  have h1 := h.count
  have h2 := h'.count
  rw [List.length_append] at h1 h2
  omega

/-- **Every page has one owner.** In every run in which the processes stay below the trapframe: a page of the allocator
is in exactly one place, and what is in a place is such a page; a page mapped twice is the trampoline; no
operation panics in `kfree` or in `freewalk`; and when a process has come and gone, and all else is
equal, as many pages are free as before. -/
theorem page_ownership (K : Kernel) (freelist others : List ℕ) (hnd : (freelist ++ others).Nodup)
    (hall : ∀ pa, pa ∈ freelist ++ others ↔ pa ∈ area K) (as : List Act) (σ : St)
    (hr : Run (step K) (Within K) (boot freelist others) as σ) :
    (∀ pa ∈ area K, ∃! x, Holds σ pa x) ∧ (∀ pa x, Holds σ pa x → pa ∈ area K) ∧
    (∀ p q r r' v w pte pte', (σ.proc p).pagetable = some r → (σ.proc q).pagetable = some r' → leaf σ.m.mem r v = some pte →
      leaf σ.m.mem r' w = some pte' → pte.pa = pte'.pa → pte.pa ≠ K.trampoline → p = q ∧ v = w) ∧
    (∀ a e, step K a σ = .panic e → Panics a σ e ∧ e ≠ "kfree" ∧ e ≠ "freewalk: leaf") ∧
    ∀ as' u c, Run (step K) (Within K) σ as' u → (σ.proc c).state = .unused → (u.proc c).state = .unused →
      (∀ p ≠ c, (pagesOf u p).ncard = (pagesOf σ p).ncard) → u.others.length = σ.others.length →
      u.m.freelist.length = σ.m.freelist.length := by
  have h := run_inv (boot_inv hnd hall) hr
  refine ⟨fun pa => h.one_place, fun pa x => Holds.area h, fun p q r r' v w pte pte' => h.mapped_once, fun a e hs => ?_,
    fun as' u c hr' hc hc' => h.free_count (run_inv h hr') hc hc'⟩
  have hp := h.panics hs
  exact ⟨hp, hp.not_memory.1, hp.not_memory.2.1⟩

/-- The first process executes a program of one page, grows by a page and by a lazy one, and touches it; it forks, the child
exits and is waited for. -/
def forkExit : List Act :=
  [.userinit, .forkret ⟨true, true, 0, [⟨true, true, 5, 0, 4096, 4096, fun _ => 0x13, 1⟩]⟩, .sbrk 0 4096 1, .sbrk 0 4096 0,
    .fault 0 20480, .fork 0, .exit 1 0, .wait 0 0]

theorem forkExit_ok : (execIf (step smallKernel) (within smallKernel) forkExit (boot smallFreelist [])).Sat fun u =>
    u.m.freelist.length = 20 ∧ (u.proc 0).sz = 24576 ∧ (u.proc 1).state = .unused := by
  decide +kernel

theorem page_ownership_forkExit : ∃ σ, Run (step smallKernel) (Within smallKernel) (boot smallFreelist []) forkExit σ ∧
    σ.m.freelist.length = 20 ∧ (∃! x, Holds σ 0x87fe0000 x) ∧ ∀ a, step smallKernel a σ ≠ .panic "kfree" := by
  obtain ⟨σ, hσ, hlen, -⟩ := forkExit_ok.ok
  have hrun := (run_of_execIf hσ).mono fun _ _ h => Within.of_within h
  have hnd : (smallFreelist ++ []).Nodup := by decide +kernel
  obtain ⟨hone, -, -, hpanic, -⟩ := page_ownership smallKernel smallFreelist [] hnd mem_smallFreelist forkExit σ hrun
  exact ⟨σ, hrun, hlen, hone _ ((mem_smallFreelist _).mp (by decide +kernel)), fun a ha => (hpanic a _ ha).2.1 rfl⟩

/-- A page that a pipe takes is no longer free. -/
example : (execIf (step smallKernel) (within smallKernel) [.kalloc] (boot smallFreelist [])).Sat fun σ =>
    σ.others = smallFreelist.take 1 ∧ σ.m.freelist = smallFreelist.drop 1 := by decide +kernel

end Xv6.Vm
