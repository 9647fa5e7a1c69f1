import Xv6.Proofs.ForkIsolation
import Xv6.Sanity.UserCopy

/-! What a process finds in its memory after it has called `sbrk`, after a page fault and after a `copyout`. -/

namespace Xv6.Vm

open Wp Machine

variable {K : Kernel} {pend : Set ℕ} {p : Slot} {σ τ u : St} {s s' : Mem} {r f v x sz : ℕ}

/-- The byte at `x` of a page that is mapped, and zero in one that is not. -/
def content (m : Mem) (r x : ℕ) : UInt8 :=
  match leaf m.mem r (x / PGSIZE) with
  | some e => m.data e.pa (x % PGSIZE)
  | none => 0

/-- A live process with the page table `r`, which maps nothing above the size but what the kernel has put there. -/
structure Settled (K : Kernel) (pend : Set ℕ) (p : Slot) (r f : ℕ) (σ : St) : Prop where
  live : (σ.proc p).state = .live
  table : (σ.proc p).pagetable = some r
  pages : Pages K (roots σ.proc) pend σ.m
  le : (σ.proc p).sz ≤ TRAPFRAME
  above : ∀ v, npages (σ.proc p).sz ≤ v → leaf σ.m.mem r v = kernelLeaves K f v

section Content

theorem content_congr (hleaf : leaf s'.mem r (x / PGSIZE) = leaf s.mem r (x / PGSIZE))
    (hdata : ∀ e, leaf s.mem r (x / PGSIZE) = some e → s'.data e.pa = s.data e.pa) : content s' r x = content s r x := by
  unfold content
  rw [hleaf]
  cases he : leaf s.mem r (x / PGSIZE) with
  | none => rfl
  | some e =>
    dsimp only
    rw [hdata e he]

theorem content_none (h : leaf s.mem r (x / PGSIZE) = none) : content s r x = 0 := by
  unfold content
  rw [h]

theorem lt_pgRoundUp_iff (h : sz ≤ TRAPFRAME) : x < pgRoundUp sz ↔ x / PGSIZE < npages sz := by
  rw [pgRoundUp_eq (h.trans trapframe_eq.2), Nat.div_lt_iff_lt_mul (by decide)]

theorem Settled.root (h : Settled K pend p r f σ) : r ∈ roots σ.proc := Or.inl ⟨p, h.table⟩

theorem Settled.none_above (h : Settled K pend p r f σ) (hv : npages (σ.proc p).sz ≤ v) (hu : v < UPAGES) :
    leaf σ.m.mem r v = none := by
  rw [h.above v hv, kernelLeaves_user K f hu]

theorem Settled.zero_above (h : Settled K pend p r f σ) (hx : x < TRAPFRAME) (hout : ¬ x < pgRoundUp (σ.proc p).sz) :
    content σ.m r x = 0 := by
  rw [lt_pgRoundUp_iff h.le] at hout
  exact content_none (h.none_above (Nat.not_lt.mp hout) (page_lt_upages hx))

theorem Settled.kernelOnly (h : Settled K pend p r f σ) : KernelOnly (leaf σ.m.mem r) :=
  .of_kernel fun v hv => h.above v ((npages_le h.le).trans hv)

/-- Pages that are mapped before and after, and of which only free ones have been written in between. -/
theorem content_spared {roots : Set ℕ} {pend' : Set ℕ} (hp : Pages K roots pend s) (hp' : Pages K roots pend' s') (hr : r ∈ roots)
    (hx : x < TRAPFRAME) (h : Spared s s') (hleaf : leaf s'.mem r (x / PGSIZE) = leaf s.mem r (x / PGSIZE)) :
    content s' r x = content s r x := by
  refine content_congr hleaf fun e he => h.data ?_ ?_
  · exact (hp.user hr (page_lt_upages hx) he).2.1
  · exact (hp'.user hr (page_lt_upages hx) (hleaf.trans he)).2.1

end Content

/-- Of the bytes of `W` nothing is said; the others are as in `σ` as long as their page has been below the size, and zero
otherwise. -/
structure Held (K : Kernel) (pend : Set ℕ) (p : Slot) (r f low : ℕ) (W : ℕ → Prop) (σ u : St) : Prop where
  running : Settled K pend p r f u
  low_le : low ≤ (u.proc p).sz
  bytes : ∀ x < TRAPFRAME, ¬ W x → content u.m r x = if x < pgRoundUp low then content σ.m r x else 0

section Held

theorem Held.refl (h : Settled K pend p r f σ) (W : ℕ → Prop) : Held K pend p r f (σ.proc p).sz W σ σ where
  running := h
  low_le := le_rfl
  bytes x hx _ := by
    split_ifs with hlt
    · rfl
    · exact h.zero_above hx hlt

theorem Held.weaken {low : ℕ} {W W' : ℕ → Prop} (h : Held K pend p r f low W σ u) (hW : ∀ x, W x → W' x) :
    Held K pend p r f low W' σ u :=
  ⟨h.running, h.low_le, fun x hx hno => h.bytes x hx fun hw => hno (hW x hw)⟩

/-- One more step, from `τ` to `u`. -/
theorem Held.trans {low : ℕ} {W W' : ℕ → Prop} (h : Held K pend p r f low W σ τ)
    (h' : Held K pend p r f (min (τ.proc p).sz (u.proc p).sz) W' τ u) :
    Held K pend p r f (min low (u.proc p).sz) (fun x => W x ∨ W' x) σ u where
  running := h'.running
  low_le := min_le_right _ _
  bytes x hx hW := by
    obtain ⟨h1, h2⟩ := not_or.mp hW
    have hlow : low ≤ TRAPFRAME := h.low_le.trans h.running.le
    have hmin : ∀ {a : ℕ}, a ≤ TRAPFRAME → (x < pgRoundUp (min a (u.proc p).sz) ↔ x < pgRoundUp a ∧ x < pgRoundUp (u.proc p).sz) := by
      intro a ha
      rw [lt_pgRoundUp_iff ((min_le_left _ _).trans ha), lt_pgRoundUp_iff ha, lt_pgRoundUp_iff h'.running.le]
      rcases Nat.le_total a (u.proc p).sz with hle | hle
      · rw [Nat.min_eq_left hle]
        have := npages_mono hle
        omega
      · rw [Nat.min_eq_right hle]
        have := npages_mono hle
        omega
    rw [h'.bytes x hx h2, h.bytes x hx h1, if_congr (hmin h.running.le) rfl rfl, if_congr (hmin hlow) rfl rfl]
    have hmono : x < pgRoundUp low → x < pgRoundUp (τ.proc p).sz := by
      rw [lt_pgRoundUp_iff hlow, lt_pgRoundUp_iff h.running.le]
      exact fun hlt => hlt.trans_le (npages_mono h.low_le)
    by_cases hA : x < pgRoundUp low
    · simp only [hA, hmono hA, true_and, if_true]
    · simp only [hA, false_and, if_false, ite_self]

end Held

section Steps

/-- The size of the process changes together with its page table. -/
theorem Settled.resize (h : Settled K pend p r f σ) (hp : Pages K (roots σ.proc) pend s') (hle : sz ≤ TRAPFRAME)
    (habove : ∀ v, npages sz ≤ v → leaf s'.mem r v = kernelLeaves K f v) :
    Settled K pend p r f ⟨s', Function.update σ.proc p { σ.proc p with sz := sz }, σ.others⟩ := by
  have hroots : roots (Function.update σ.proc p { σ.proc p with sz := sz }) = roots σ.proc := by
    rw [roots, roots, pagetables_update]
    exact congrArg (fun g => Holders.holdings g ∅) (Function.update_eq_self p (pagetables σ.proc))
  have hself := Function.update_self p { σ.proc p with sz := sz } σ.proc
  refine ⟨(congrArg Proc.state hself).trans h.live, (congrArg Proc.pagetable hself).trans h.table, hroots.symm ▸ hp,
    (congrArg Proc.sz hself).trans_le hle, fun v hv => habove v ?_⟩
  exact (congrArg (fun e : Proc => npages e.sz) hself).symm.trans_le hv

/-- What a call of `sys_sbrk` does. -/
inductive Sbrked (K : Kernel) (pend : Set ℕ) (p : Slot) (r f : ℕ) (n : ℤ) (σ : St) : Option ℕ → St → Prop where
  | failed {m : Mem} (hp : Pages K (roots σ.proc) pend m) (hleaf : leaf m.mem r = leaf σ.m.mem r)
      (hbytes : ∀ x < TRAPFRAME, content m r x = content σ.m r x) : Sbrked K pend p r f n σ none { σ with m := m }
  | done {u : St} (hsz : ((u.proc p).sz : ℤ) = if 0 ≤ (σ.proc p).sz + n then (σ.proc p).sz + n else (σ.proc p).sz)
      (hheld : Held K pend p r f (min (σ.proc p).sz (u.proc p).sz) (fun _ => False) σ u) :
      Sbrked K pend p r f n σ (some (σ.proc p).sz) u

theorem Sbrked.resized {n : ℤ} {m : Mem}
    (hsz : (sz : ℤ) = if 0 ≤ (σ.proc p).sz + n then (σ.proc p).sz + n else (σ.proc p).sz)
    (hheld : Held K pend p r f (min (σ.proc p).sz sz) (fun _ => False) σ
      ⟨m, Function.update σ.proc p { σ.proc p with sz := sz }, σ.others⟩) :
    Sbrked K pend p r f n σ (some (σ.proc p).sz) ⟨m, Function.update σ.proc p { σ.proc p with sz := sz }, σ.others⟩ := by
  have hself := congrArg Proc.sz (Function.update_self p { σ.proc p with sz := sz } σ.proc)
  refine .done ((congrArg Nat.cast hself).trans hsz) ?_
  rw [show (Function.update σ.proc p { σ.proc p with sz := sz } p).sz = sz from hself]
  exact hheld

theorem addSz_of_nonneg {n : ℤ} (h0 : 0 ≤ sz + n) (hn : sz + n ≤ TRAPFRAME) : (addSz sz n : ℤ) = sz + n := by
  have hlt : (TRAPFRAME : ℤ) < 2 ^ 64 := by decide
  simp only [addSz]
  omega

section Held

variable (h : Settled K pend p r f σ)

include h

/-- Growing: `uvmalloc` maps pages of zeros. -/
theorem uvmalloc_held (hle : (σ.proc p).sz ≤ sz) (hsz : sz ≤ TRAPFRAME) :
    wp (uvmalloc K r (σ.proc p).sz sz (true, false)) (fun res m =>
      (res = 0 ∧ Pages K (roots σ.proc) pend m ∧ leaf m.mem r = leaf σ.m.mem r ∧ ∀ x < TRAPFRAME, content m r x = content σ.m r x) ∨
      (res = sz ∧ Held K pend p r f (min (σ.proc p).sz sz) (fun _ => False) σ
        ⟨m, Function.update σ.proc p { σ.proc p with sz := sz }, σ.others⟩)) never σ.m := by
  have htf : leaf σ.m.mem r UPAGES ≠ none := by
    rw [h.above UPAGES (npages_le h.le), kernelLeaves, Function.update_self]
    exact Option.some_ne_none _
  refine wp_mono (uvmalloc_spec h.pages h.root h.le (fun v hv hu => h.none_above hv hu) htf) (fun res m hres => ?_) fun e he =>
    absurd hsz (Nat.not_le.mpr he.2.1)
  obtain ⟨hp, -, hspared, ⟨-, hlt, -⟩ | ⟨rfl, hleaf⟩ | ⟨rfl, -, -, hfill, hzero⟩⟩ := hres
  · omega
  · exact .inl ⟨rfl, hp, hleaf, fun x hx => content_spared h.pages hp h.root hx hspared (congrFun hleaf _)⟩
  · refine .inr ⟨rfl, h.resize hp hsz fun v hv => ?_, by simp, fun x hx _ => ?_⟩
    · rw [hfill.outside v (by omega), h.above v ((npages_mono hle).trans hv)]
    · rw [Nat.min_eq_left hle]
      dsimp only
      split_ifs with hlt
      · rw [lt_pgRoundUp_iff h.le] at hlt
        exact content_spared h.pages hp h.root hx hspared (hfill.outside _ (by omega))
      · rw [lt_pgRoundUp_iff h.le] at hlt
        by_cases hin : x / PGSIZE < npages res
        · obtain ⟨pa, hpa⟩ := hfill.inside _ (Nat.not_lt.mp hlt) hin
          unfold content
          rw [hpa]
          exact hzero _ (Nat.not_lt.mp hlt) hin _ hpa _
        · exact content_none ((hfill.outside _ (by omega)).trans (h.none_above (Nat.not_lt.mp hlt) (page_lt_upages hx)))

/-- Shrinking: the pages above the new size are freed, the others are as they were. -/
theorem uvmdealloc_held (sz : ℕ) : wp (uvmdealloc K r (σ.proc p).sz sz) (fun res m =>
    res = min (σ.proc p).sz sz ∧ Held K pend p r f (min (σ.proc p).sz res) (fun _ => False) σ
      ⟨m, Function.update σ.proc p { σ.proc p with sz := res }, σ.others⟩) never σ.m := by
  refine wp_mono (wp_and (uvmdealloc_spec h.pages h.root h.le) (uvmdealloc_onlyFreed _ _)) (fun res m hres => ?_) fun e he => he.1
  obtain ⟨⟨hres, hp, -, hleaf⟩, hfreed⟩ := hres
  have hle : res ≤ (σ.proc p).sz := hres ▸ min_le_left _ _
  refine ⟨hres, h.resize hp (hle.trans h.le) fun v hv => ?_, by simp, fun x hx _ => ?_⟩
  · rw [hleaf, without]
    split_ifs with hin
    · have := npages_le h.le
      rw [kernelLeaves_user K f (by omega)]
    · exact h.above v (by omega)
  · rw [Nat.min_eq_right hle]
    dsimp only
    split_ifs with hlt
    · rw [lt_pgRoundUp_iff (hle.trans h.le)] at hlt
      refine content_spared h.pages hp h.root hx ⟨σ.m, .refl _, hfreed⟩ ?_
      rw [hleaf, without, if_neg (by omega)]
    · rw [lt_pgRoundUp_iff (hle.trans h.le)] at hlt
      refine content_none ?_
      rw [hleaf, without]
      split_ifs with hin
      · rfl
      · exact h.none_above (by omega) (page_lt_upages hx)

/-- Another size, and no page of the memory changes. -/
theorem Settled.lazy (hle : (σ.proc p).sz ≤ sz) (hsz : sz ≤ TRAPFRAME) :
    Held K pend p r f (min (σ.proc p).sz sz) (fun _ => False) σ ⟨σ.m, Function.update σ.proc p { σ.proc p with sz := sz }, σ.others⟩ := by
  refine ⟨h.resize h.pages hsz fun v hv => h.above v ((npages_mono hle).trans hv), by simp, fun x hx _ => ?_⟩
  rw [Nat.min_eq_left hle]
  split_ifs with hlt
  · rfl
  · exact h.zero_above hx hlt

theorem growproc_held {n : ℤ} (hlow : -2 ^ 31 ≤ n) (hn : 0 < n → (σ.proc p).sz + n ≤ TRAPFRAME) :
    wp (growproc K p n) (fun ok u => Sbrked K pend p r f n σ (if ok then some (σ.proc p).sz else none) u) never σ := by
  simp only [growproc, wp_bind, wp_getProc, wp_pagetableOf h.table, wp_ite, wp_vm, wp_modifyProc, wp_pure]
  refine ⟨fun hpos => ?_, fun hpos => ⟨fun hneg => ?_, fun hneg => ?_⟩⟩
  · have hadd : (addSz (σ.proc p).sz n : ℤ) = (σ.proc p).sz + n := addSz_of_nonneg (by omega) (hn hpos)
    have hle := hn hpos
    refine wp_imp (uvmalloc_held h (by omega) (by omega)) fun res m hres => ?_
    rcases hres with ⟨rfl, hp, hleaf, hbytes⟩ | ⟨rfl, hheld⟩
    · exact ⟨fun _ => .failed hp hleaf hbytes, fun hne => absurd rfl hne⟩
    · refine ⟨fun hz => by omega, fun _ => .resized ?_ hheld⟩
      rw [if_pos (by omega)]
      exact hadd
  · refine wp_imp (uvmdealloc_held h _) fun res m hres => ?_
    obtain ⟨hres, hheld⟩ := hres
    refine .resized ?_ hheld
    have hsz : (TRAPFRAME : ℤ) < 2 ^ 63 := by decide
    have hle := h.le
    rw [hres]
    split_ifs with h0
    · have hadd : (addSz (σ.proc p).sz n : ℤ) = (σ.proc p).sz + n := addSz_of_nonneg h0 (by omega)
      omega
    · -- below zero the size wraps around, and nothing is freed
      have hadd : (addSz (σ.proc p).sz n : ℤ) = (σ.proc p).sz + n + 2 ^ 64 := by
        simp only [addSz]
        omega
      omega
  · obtain rfl : n = 0 := by omega
    refine .resized ?_ (h.lazy le_rfl h.le)
    rw [if_pos (by omega), add_zero]

theorem sysSbrk_held {n t : ℤ} (hlow : -2 ^ 31 ≤ n) (hn : 0 < n → (σ.proc p).sz + n ≤ TRAPFRAME) :
    wp (sysSbrk K p n t) (fun res u => Sbrked K pend p r f n σ res u) never σ := by
  simp only [sysSbrk, wp_bind, wp_getProc, wp_ite, wp_pure, wp_modifyProc]
  refine ⟨fun _ => wp_imp (growproc_held h hlow hn) fun ok u hres => ?_, fun hlazy => ?_⟩
  · cases ok with
    | true => exact ⟨fun _ => hres, fun hne => absurd rfl hne⟩
    | false => exact ⟨by simp, fun _ => hres⟩
  · have hle := h.le
    have hbound : (σ.proc p).sz + n ≤ TRAPFRAME := by
      by_cases hpos : 0 < n
      · exact hn hpos
      · omega
    have hadd : (addSz (σ.proc p).sz n : ℤ) = (σ.proc p).sz + n := addSz_of_nonneg (by omega) hbound
    refine ⟨fun hlt => by omega, fun _ => .resized ?_ (h.lazy (by omega) (by omega))⟩
    rw [if_pos (by omega)]
    exact hadd

/-- Pages are mapped, and nothing else shows. -/
theorem Settled.faulted {m : Mem} {W : ℕ → Prop} (hp : Pages K (roots σ.proc) pend m)
    (habove : ∀ v, npages (σ.proc p).sz ≤ v → leaf m.mem r v = leaf σ.m.mem r v)
    (hbytes : ∀ x < TRAPFRAME, ¬ W x → content m r x = content σ.m r x) :
    Held K pend p r f (min (σ.proc p).sz (σ.proc p).sz) W σ { σ with m := m } := by
  refine ⟨⟨h.live, h.table, hp, h.le, fun v hv => (habove v hv).trans (h.above v hv)⟩, min_le_left _ _, fun x hx hW => ?_⟩
  rw [Nat.min_self, hbytes x hx hW]
  split_ifs with hlt
  · rfl
  · exact h.zero_above hx hlt

theorem vmfault_held (va : ℕ) : wp (vmfault K r (σ.proc p).sz r va) (fun _ m =>
    Held K pend p r f (min (σ.proc p).sz (σ.proc p).sz) (fun _ => False) σ { σ with m := m }) never σ.m := by
  refine wp_imp (vmfault_fault h.pages h.root h.le) fun res m hfault => ?_
  have hspared : Spared σ.m m := ⟨m, hfault.free, .refl m⟩
  have hsame : ∀ x < TRAPFRAME, leaf m.mem r (x / PGSIZE) = leaf σ.m.mem r (x / PGSIZE) → content m r x = content σ.m r x :=
    fun x hx => content_spared h.pages hfault.pages h.root hx hspared
  refine h.faulted hfault.pages hfault.grown.above fun x hx _ => ?_
  rcases hfault.page with ⟨-, hleaf, -⟩ | ⟨c, -, hf⟩
  · exact hsame x hx (congrFun hleaf _)
  · by_cases hxv : x / PGSIZE = va / PGSIZE
    · have hpage : leaf m.mem r (x / PGSIZE) = some ⟨true, ⟨true, true, false, true⟩, c⟩ := by
        rw [hxv, hf.leaf, Function.update_self]
      have hnone : leaf σ.m.mem r (x / PGSIZE) = none := by rw [hxv, hf.absent]
      rw [content_none hnone, content, hpage]
      exact hf.zero _
    · exact hsame x hx (hf.leaf_ne hxv)

theorem copyout_held (va : ℕ) (src : List UInt8) :
    wp (copyout K r (σ.proc p).sz r va src) (fun _ m =>
      Held K pend p r f (min (σ.proc p).sz (σ.proc p).sz) (fun x => va ≤ x ∧ x < va + src.length) σ { σ with m := m }) never σ.m := by
  refine wp_imp (copyoutFrom_exact h.root h.le src.length va src le_rfl h.pages h.kernelOnly) fun done m hc => ?_
  refine h.faulted hc.pages hc.grown.above fun x hx hW => ?_
  have hu : x / PGSIZE < UPAGES := page_lt_upages hx
  cases hl : leaf σ.m.mem r (x / PGSIZE) with
  | some e =>
    -- it has been there, and what is outside of the range has not been written
    have hl' := hc.frame.kept _ e hl
    rw [content, content, hl, hl']
    dsimp only
    by_contra hne
    obtain ⟨v, d, hd, hpa, hcan, hlo, hhi⟩ := hc.frame.written e.pa (h.pages.user h.root hu hl).2.1 _ hne
    have hv : v < UPAGES := by
      by_contra hge
      have huser := h.kernelOnly v (Nat.not_lt.mp hge) d hd
      simp [canWrite, huser] at hcan
    obtain rfl : v = x / PGSIZE := (h.pages.page_inj h.root hv hd h.root hu hl hpa).2
    rw [Nat.div_add_mod'] at hlo hhi
    exact hW ⟨hlo, hhi⟩
  | none =>
    rw [content_none hl]
    cases hl' : leaf m.mem r (x / PGSIZE) with
    | none => exact content_none hl'
    | some e =>
      -- it has been faulted in
      have hbelow : pgRoundDown x < (σ.proc p).sz := by
        by_contra hge
        have hnp : npages (σ.proc p).sz ≤ x / PGSIZE := by
          rw [pgRoundDown] at hge
          simp only [npages, PGSIZE] at *
          omega
        rw [hc.grown.above _ hnp, hl] at hl'
        cases hl'
      have hout := hc.outside x hW
      have hmax : ¬ MAXVA ≤ x := Nat.not_le.mpr (hx.trans_le trapframe_eq.2)
      rw [userByte, userByte, if_neg hmax, if_neg hmax, hl, hl', pageByte, pageByte, if_pos hbelow] at hout
      split_ifs at hout
      rw [content, hl']
      exact Option.some.inj hout

end Held

end Steps

end Xv6.Vm
