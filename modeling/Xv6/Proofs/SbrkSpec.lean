import Xv6.Proofs.AddressBound
import Xv6.Sanity.Sbrk

/-! `sys_sbrk`: its result, the size, the pages mapped, and what the memory holds after any sequence of calls, page faults
and copies to the user. -/

namespace Xv6.Vm

open Wp Machine

variable {K : Kernel} {pend : Set ℕ} {p : Slot} {σ τ u : St} {r f low : ℕ} {a : Act} {as : List Act}

/-- The address is in the range of a `copyout`. -/
def Act.Writes (x : ℕ) : Act → Prop
  | .copyout _ va src => va ≤ x ∧ x < va + src.length
  | _ => False

/-- A step that keeps the smallest size that the process has had. -/
def tracked (K : Kernel) (p : Slot) (a : Act) (s : St × ℕ) : Outcome (St × ℕ) :=
  (step K a s.1).map fun u => (u, min s.2 (u.proc p).sz)

/-- The process works on its own memory, with `sbrk` staying below the trapframe. -/
def Own (p : Slot) (σ : St) (a : Act) : Prop := a.OwnMemory p ∧ Modest σ a

section Steps

theorem Settled.run (h : Settled K pend p r f σ) (ha : Own p σ a) : wp (a.run K) (fun _ u =>
    Held K pend p r f (min (σ.proc p).sz (u.proc p).sz) (fun x => a.Writes x) σ u) never σ := by
  obtain ⟨hown, hm⟩ := ha
  cases a with
  | sbrk q n t =>
    obtain rfl : q = p := hown
    refine wp_discard.mpr (wp_imp (sysSbrk_held h (BitVec.le_toInt n) hm) fun res u hres => ?_)
    cases hres with
    | failed hp hleaf hbytes => exact h.faulted hp (fun v _ => congrFun hleaf v) fun x hx _ => hbytes x hx
    | done hsz hheld => exact hheld
  | fault q va =>
    obtain rfl : q = p := hown
    refine wp_discard.mpr ?_
    simp only [pageFault, wp_bind, wp_getProc, wp_pagetableOf h.table, wp_vm, wp_pure]
    exact wp_imp (vmfault_held h va) fun _ _ hm => hm
  | copyout q va src =>
    obtain rfl : q = p := hown
    refine wp_discard.mpr ?_
    simp only [copyoutTo, wp_bind, wp_getProc, wp_pagetableOf h.table, wp_vm]
    exact wp_imp (copyout_held h va src) fun _ _ hm => hm
  | _ => exact hown.elim

theorem Own.enabled (h : Settled K pend p r f σ) (ha : Own p σ a) : a.enabled σ := by
  obtain ⟨hown, -⟩ := ha
  cases a with
  | sbrk q _ _ | fault q _ | copyout q _ _ =>
    obtain rfl : q = p := hown
    intro q' hq
    cases hq
    exact h.live
  | _ => exact hown.elim

/-- No step panics or waits. -/
theorem Settled.goes (h : Settled K pend p r f σ) (ha : Own p σ a) : ∃ u, step K a σ = .ok u ∧
    Held K pend p r f (min (σ.proc p).sz (u.proc p).sz) (fun x => a.Writes x) σ u := by
  obtain ⟨res, u, hrun, hheld⟩ := wp_returns (h.run ha)
  refine ⟨u, ?_, hheld⟩
  rw [step, if_pos (ha.enabled h), hrun]

theorem Settled.runs (h : Settled K pend p r f σ) (hr : Run (step K) (Own p) σ as τ) : Settled K pend p r f τ := by
  refine hr.inv h fun t a u ht ha hs => ?_
  obtain ⟨u', hs', hheld⟩ := ht.goes ha
  rw [hs] at hs'
  cases hs'
  exact hheld.running

theorem Settled.tracks {t : St × ℕ} (h : Settled K pend p r f σ)
    (hr : Run (tracked K p) (fun s a => Own p s.1 a) (σ, (σ.proc p).sz) as t) :
    Held K pend p r f t.2 (fun x => ∃ a ∈ as, a.Writes x) σ t.1 := by
  induction hr with
  | nil => exact .refl h _
  | snoc _ ha hs ih =>
    obtain ⟨u, hu, rfl⟩ := Outcome.map_ok hs
    obtain ⟨u', hs', hheld⟩ := ih.running.goes ha
    rw [hu] at hs'
    cases hs'
    refine (ih.trans hheld).weaken fun x hx => ?_
    rcases hx with ⟨b, hb, hx⟩ | hx
    · exact ⟨b, List.mem_append_left _ hb, hx⟩
    · exact ⟨_, List.mem_append_right _ (List.mem_singleton_self _), hx⟩

end Steps

/-- A live process in a state that is reached with sizes at most `TRAPFRAME`. -/
theorem Inv.settled (h : Inv K ∅ σ) (hlive : (σ.proc p).state = .live) :
    ∃ r f, Settled K (held σ.proc σ.others ∅) p r f σ := by
  obtain ⟨r, f, hr, hf, -⟩ := h.live hlive
  obtain ⟨hle, f', -, habove⟩ := (h.sane p).table r hr
  exact ⟨r, f', hlive, hr, h.pages, hle, habove⟩

/-- **The specification of `sbrk`.** After any sequence of `sbrk`, page faults and `copyout` of a process: no page is mapped
above the size; a call of `sbrk` fails and changes nothing, or returns the old size and adds to it, unless the sum is
negative; and whatever follows, a byte outside of the copies is the byte it was as long as its page stays below the
size, and zero from the first time that its page is not. -/
theorem sbrk_spec (K : Kernel) (pend : Set ℕ) (p : Slot) (r f : ℕ) (σ τ : St) (as : List Act)
    (h : Settled K pend p r f σ) (hr : Run (step K) (Own p) σ as τ) :
    (∀ v < TRAPFRAME / PGSIZE, leaf τ.m.mem r v ≠ none → v * PGSIZE < pgRoundUp (τ.proc p).sz) ∧
    (∀ n t : BitVec 32, Own p τ (.sbrk p n t) → ∃ res u, sysSbrk K p n.toInt t.toInt τ = .ok (res, u) ∧
      ((res = none ∧ u.proc = τ.proc ∧ leaf u.m.mem r = leaf τ.m.mem r ∧
          ∀ x < TRAPFRAME, content u.m r x = content τ.m r x) ∨
        (res = some (τ.proc p).sz ∧ ((u.proc p).sz : ℤ) =
          if 0 ≤ (τ.proc p).sz + n.toInt then (τ.proc p).sz + n.toInt else (τ.proc p).sz))) ∧
    (∀ a, Own p τ a → ∃ u, step K a τ = .ok u) ∧
    ∀ bs u low, Run (tracked K p) (fun s a => Own p s.1 a) (τ, (τ.proc p).sz) bs (u, low) →
      ∀ x < TRAPFRAME, (∀ a ∈ bs, ¬ a.Writes x) →
        content u.m r x = if x < pgRoundUp low then content τ.m r x else 0 := by
  have hτ := h.runs hr
  refine ⟨fun v hv hmapped => ?_, fun n t ha => ?_, fun a ha => ?_, fun bs u low hb x hx hno => ?_⟩
  · by_contra hout
    rw [lt_pgRoundUp_iff hτ.le, Nat.mul_div_cancel _ (by decide)] at hout
    exact hmapped (hτ.none_above (Nat.not_lt.mp hout) (by rwa [UPAGES]))
  · obtain ⟨res, u, hrun, hres⟩ := wp_returns (sysSbrk_held hτ (BitVec.le_toInt n) ha.2)
    refine ⟨res, u, hrun, ?_⟩
    cases hres with
    | failed _ hleaf hbytes => exact .inl ⟨rfl, rfl, hleaf, hbytes⟩
    | done hsz _ => exact .inr ⟨rfl, hsz⟩
  · obtain ⟨u, hs, -⟩ := hτ.goes ha
    exact ⟨u, hs⟩
  · refine (hτ.tracks hb).bytes x hx ?_
    rintro ⟨a, ha, hw⟩
    exact hno a ha hw

instance (p : Slot) (a : Act) : Decidable (a.OwnMemory p) :=
  match a with
  | .sbrk .. | .fault .. | .copyout .. => inferInstanceAs (Decidable (_ = _))
  | .userinit | .forkret _ | .fork _ | .exec .. | .copyin .. | .exit .. | .wait .. | .kalloc | .kfree _ => isFalse id

instance (p : Slot) (σ : St) (a : Act) : Decidable (Own p σ a) := inferInstanceAs (Decidable (_ ∧ _))

/-- Two pages are allocated and written. -/
def growWrite : List Act := [.userinit, .sbrk 0 8192 1, .copyout 0 4095 [6, 7]]

/-- The second is released and comes back lazily. -/
def releaseRegain : List Act := [.sbrk 0 (-4096) 1, .sbrk 0 4096 0, .fault 0 4096]

theorem releaseRegain_ok :
    (execIf (step smallKernel) (fun σ a => decide (Modest σ a)) growWrite (boot smallFreelist [])).Sat fun τ =>
      ((τ.proc 0).state = .live ∧ ∃ r ∈ (τ.proc 0).pagetable, (content τ.m r 4095, content τ.m r 4096) = (6, 7)) ∧
      (execIf (tracked smallKernel 0) (fun s a => decide (Own 0 s.1 a)) releaseRegain (τ, (τ.proc 0).sz)).Sat fun u =>
        u.2 = 4096 ∧ ∃ r ∈ (u.1.proc 0).pagetable, leaf u.1.m.mem r 1 ≠ none := by
  decide +kernel

theorem sbrk_spec_regained : ∃ τ u r, Run (step smallKernel) Modest (boot smallFreelist []) growWrite τ ∧
    (τ.proc 0).pagetable = some r ∧
    Run (tracked smallKernel 0) (fun s a => Own 0 s.1 a) (τ, (τ.proc 0).sz) releaseRegain (u, 4096) ∧
    content τ.m r 4095 = 6 ∧ content τ.m r 4096 = 7 ∧ content u.m r 4095 = 6 ∧ content u.m r 4096 = 0 := by
  obtain ⟨τ, ⟨u, low⟩, hτ, ⟨hlive, r, hr, hbytes⟩, hu, hlow, -⟩ := releaseRegain_ok.seq
  obtain rfl : low = 4096 := hlow
  obtain ⟨h6, h7⟩ := Prod.mk.inj hbytes
  have hτ := (run_of_execIf hτ).mono fun _ _ => of_decide_eq_true
  have hu := (run_of_execIf hu).mono fun _ _ => of_decide_eq_true
  obtain ⟨r', f, hset⟩ := (modest_inv (boot_inv (by decide +kernel) mem_smallFreelist) hτ).settled hlive
  obtain rfl : r' = r := Option.some.inj (hset.table.symm.trans hr)
  obtain ⟨-, -, -, hkept⟩ := sbrk_spec smallKernel _ 0 r' f τ τ [] hset .nil
  have hno : ∀ x, ∀ a ∈ releaseRegain, ¬ a.Writes x := by
    intro x a ha
    simp only [releaseRegain, List.mem_cons, List.not_mem_nil, or_false] at ha
    rcases ha with rfl | rfl | rfl <;> exact id
  refine ⟨τ, u, r', hτ, hr, hu, h6, h7, ?_, ?_⟩
  · rw [hkept _ _ _ hu 4095 (by decide) (hno _), if_pos (by decide), h6]
  · rw [hkept _ _ _ hu 4096 (by decide) (hno _), if_neg (by decide)]

end Xv6.Vm
