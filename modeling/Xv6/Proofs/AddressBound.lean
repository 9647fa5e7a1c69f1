import Xv6.Sanity.ExecOps

/-! The bound of user memory. `sbrk` does not check it; a process that keeps to it keeps its trapframe. -/

namespace Xv6.Vm

open Wp Machine

variable {K : Kernel} {σ u : St} {as : List Act}

/-- A call of `sbrk` that grows the process stays below the trapframe. -/
def Modest (σ : St) (a : Act) : Prop :=
  match a with
  | .sbrk p n _ => 0 < n.toInt → (σ.proc p).sz + n.toInt ≤ TRAPFRAME
  | _ => True

instance (σ : St) (a : Act) : Decidable (Modest σ a) :=
  match a with
  | .sbrk .. => inferInstanceAs (Decidable (_ → _))
  | .userinit | .forkret _ | .fork _ | .exec .. | .fault .. | .copyout .. | .copyin .. | .exit .. | .wait .. | .kalloc
  | .kfree _ => isTrue trivial

theorem Modest.not_overgrows {a : Act} (h : Modest σ a) : ¬ Overgrows a σ := by
  cases a with
  | sbrk p n t =>
    rintro ⟨hpos, hover⟩
    have hle : ((σ.proc p).sz : ℤ) + n.toInt ≤ TRAPFRAME := h hpos
    have hlt : (TRAPFRAME : ℤ) < 2 ^ 64 := by decide
    simp only [addSz] at hover
    omega
  | _ => exact id

theorem modest_inv (h0 : Inv K ∅ σ) (hr : Run (step K) Modest σ as u) : Inv K ∅ u :=
  hr.inv h0 fun _ _ _ h hm hs => (h.step hs).resolve_right fun hover => hm.not_overgrows hover.1

/-- After the step no process is larger than the user part of the address space. -/
def Within (K : Kernel) (σ : St) (a : Act) : Prop := ∀ u, step K a σ = .ok u → ∀ p, (u.proc p).sz ≤ TRAPFRAME

theorem run_inv (h0 : Inv K ∅ σ) (hr : Run (step K) (Within K) σ as u) : Inv K ∅ u :=
  hr.inv h0 fun _ _ _ h hw hs => (h.step hs).resolve_right fun hover => by
    obtain ⟨-, p, hp⟩ := hover
    exact absurd (hw _ hs p) (Nat.not_le.mpr hp)

def within (K : Kernel) (σ : St) (a : Act) : Bool :=
  match step K a σ with
  | .ok u => decide (∀ p, (u.proc p).sz ≤ TRAPFRAME)
  | _ => true

theorem Within.of_within {a : Act} (h : within K σ a = true) : Within K σ a := by
  intro u hu
  rw [within, hu] at h
  exact of_decide_eq_true h

theorem Inv.sz_le (h : Inv K ∅ σ) (p : Slot) : (σ.proc p).sz ≤ TRAPFRAME := by
  cases hr : (σ.proc p).pagetable with
  | none => rw [(h.sane p).empty hr]; exact Nat.zero_le _
  | some r => exact ((h.sane p).table r hr).1

/-- The trapframe of a process is mapped where it belongs, and it is not free. -/
theorem Inv.trapframe_mapped {p : Slot} {r f : ℕ} (h : Inv K ∅ σ) (hr : (σ.proc p).pagetable = some r)
    (hf : (σ.proc p).trapframe = some f) :
    leaf σ.m.mem r UPAGES = some ⟨true, ⟨true, true, false, false⟩, f⟩ ∧ f ∉ σ.m.freelist := by
  obtain ⟨hsz, f', hf', hv⟩ := (h.sane p).table r hr
  obtain rfl : f = f' := Option.some.inj (hf.symm.trans hf')
  refine ⟨?_, ?_⟩
  · rw [hv UPAGES (npages_le hsz), kernelLeaves, Function.update_self]
  · simpa using (h.pages.owned.pending (.inl ⟨p, hf⟩)).2

theorem lazyGrowth_ok : (execIf (step smallKernel) (fun _ _ => true) (.userinit :: List.replicate 128 (.sbrk 0 0x7fffffff 0))
    (boot smallFreelist [])).Sat fun σ => TRAPFRAME < (σ.proc 0).sz ∧ step smallKernel (.sbrk 0 (-12288) 0) σ = .panic "kfree" := by
  decide +kernel

theorem lazyShrink_ok : (execIf (step smallKernel) (fun _ _ => true)
    (.userinit :: (List.replicate 127 (.sbrk 0 0x7fffffff 0) ++ [.sbrk 0 2147479679 0, .sbrk 0 (-4096) 0]))
    (boot smallFreelist [])).Sat fun σ => (σ.proc 0).state = .live ∧ ∀ f ∈ (σ.proc 0).trapframe, f ∈ σ.m.freelist := by
  decide +kernel

/-- `sbrk` with the lazy option, many times, takes the size past the trapframe; a shrinking `sbrk` then gives the
trampoline to `kfree`. From one page less it frees the trapframe of the process, which goes on. -/
theorem sbrk_passes_trapframe :
    (∃ σ, Run (step smallKernel) Free (boot smallFreelist []) (.userinit :: List.replicate 128 (.sbrk 0 0x7fffffff 0)) σ ∧
      TRAPFRAME < (σ.proc 0).sz ∧ step smallKernel (.sbrk 0 (-12288) 0) σ = .panic "kfree") ∧
    ∃ σ, Run (step smallKernel) Free (boot smallFreelist [])
      (.userinit :: (List.replicate 127 (.sbrk 0 0x7fffffff 0) ++ [.sbrk 0 2147479679 0, .sbrk 0 (-4096) 0])) σ ∧
      (σ.proc 0).state = .live ∧ ∀ f, (σ.proc 0).trapframe = some f → f ∈ σ.m.freelist := by
  refine ⟨?_, ?_⟩
  · obtain ⟨σ, hσ, hsz, hpanic⟩ := lazyGrowth_ok.ok
    exact ⟨σ, (run_of_execIf hσ).free, hsz, hpanic⟩
  · obtain ⟨σ, hσ, hst, hfree⟩ := lazyShrink_ok.ok
    exact ⟨σ, (run_of_execIf hσ).free, hst, fun f hf => by simpa [hf] using hfree⟩

/-- **The user part of the address space.** In every run in which no growing `sbrk` goes past the trapframe: no process
is larger than that, no operation of such a run panics in `walk`, `mappages` or `kfree`, and a process that
is alive has its trapframe mapped and not freed. -/
theorem address_bound (K : Kernel) (freelist others : List ℕ) (hnd : (freelist ++ others).Nodup)
    (hall : ∀ pa, pa ∈ freelist ++ others ↔ pa ∈ area K) (as : List Act) (σ : St)
    (hr : Run (step K) Modest (boot freelist others) as σ) :
    (∀ p, (σ.proc p).sz ≤ TRAPFRAME) ∧
    (∀ a e, Modest σ a → step K a σ = .panic e → e ≠ "walk" ∧ e ≠ "mappages: remap" ∧ e ≠ "kfree") ∧
    ∀ p, (σ.proc p).state = .live → ∃ r f, (σ.proc p).pagetable = some r ∧ (σ.proc p).trapframe = some f ∧
      leaf σ.m.mem r (TRAPFRAME / PGSIZE) = some ⟨true, ⟨true, true, false, false⟩, f⟩ ∧ f ∉ σ.m.freelist := by
  have h := modest_inv (boot_inv hnd hall) hr
  refine ⟨h.sz_le, fun a e hm hs => ?_, fun p hp => ?_⟩
  · obtain ⟨hkfree, -, hwalk, hremap⟩ := (h.panics hs).not_memory
    exact ⟨hwalk, fun he => hm.not_overgrows (hremap he), hkfree⟩
  · obtain ⟨r, f, hrr, hf, -⟩ := h.live hp
    obtain ⟨hleaf, hfree⟩ := h.trapframe_mapped hrr hf
    rw [UPAGES] at hleaf
    exact ⟨r, f, hrr, hf, hleaf, hfree⟩

/-- A process grows lazily, touches the new page, forks, and shrinks. -/
def growFork : List Act := [.userinit, .sbrk 0 8192 0, .fault 0 4096, .fork 0, .sbrk 0 (-4096) 1, .sbrk 1 4096 1]

theorem growFork_ok : (execIf (step smallKernel) (fun σ a => decide (Modest σ a)) growFork (boot smallFreelist [])).Sat fun σ =>
    (σ.proc 0).sz = 4096 ∧ (σ.proc 1).sz = 12288 ∧ (σ.proc 1).state = .live := by
  decide +kernel

theorem address_bound_growFork : ∃ σ, Run (step smallKernel) Modest (boot smallFreelist []) growFork σ ∧
    (σ.proc 1).sz = 12288 ∧ (∀ p, (σ.proc p).sz ≤ TRAPFRAME) ∧
    ∃ r f, (σ.proc 1).pagetable = some r ∧ (σ.proc 1).trapframe = some f ∧
      leaf σ.m.mem r (TRAPFRAME / PGSIZE) = some ⟨true, ⟨true, true, false, false⟩, f⟩ ∧ f ∉ σ.m.freelist := by
  obtain ⟨σ, hσ, -, hsz, hst⟩ := growFork_ok.ok
  have hrun := (run_of_execIf hσ).mono fun _ _ h => of_decide_eq_true h
  have hnd : (smallFreelist ++ []).Nodup := by decide +kernel
  obtain ⟨hbound, -, hframe⟩ := address_bound smallKernel smallFreelist [] hnd mem_smallFreelist growFork σ hrun
  exact ⟨σ, hrun, hsz, hbound, hframe 1 hst⟩

end Xv6.Vm
