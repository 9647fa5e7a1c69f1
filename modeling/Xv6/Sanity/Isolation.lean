import Xv6.Sanity.ProcOps

/-! What a process does to its own memory leaves the memory of the others alone. This holds for any size, even for
one past the trapframe. -/

namespace Xv6.Vm

open Wp Forest

/-- The pages that a page table maps from the trapframe on are held outside of page tables, each of them once, or they are
the kernel's. -/
structure Special (K : Kernel) (pend : Set ℕ) (f : ℕ → Option Pte) : Prop where
  held : ∀ v, UPAGES ≤ v → ∀ e, f v = some e → e.pa ∈ pend ∨ e.pa ∉ area K
  apart : ∀ v w, UPAGES ≤ v → UPAGES ≤ w → ∀ e d, f v = some e → f w = some d → e.pa = d.pa → e.pa ∈ area K → v = w

/-- The page table `r` is in order, and the others and their memory are as in `s`. -/
def Keeps (K : Kernel) (roots : Set ℕ) (r : ℕ) (s s' : Mem) : Prop :=
  ∃ pend, Pages K roots pend s' ∧ Special K pend (leaf s'.mem r) ∧ SameBut roots r s s'

/-- The same, with the page `c` in hand. -/
def Fresh (K : Kernel) (roots : Set ℕ) (r c : ℕ) (s s' : Mem) : Prop :=
  ∃ pend, c ∉ pend ∧ c ∈ area K ∧ Pages K roots (insert c pend) s' ∧ Special K pend (leaf s'.mem r) ∧ SameBut roots r s s'

/-- Any error. -/
def anyError : String → Prop := fun _ => True

section Memory

variable {K : Kernel} {roots pend : Set ℕ} {s s' t : Mem} {r c va vpn : ℕ} {perm : Perm}

section Special

variable {f : ℕ → Option Pte} {e : Pte}

theorem Special.low (h : Special K pend f) (hv : vpn < UPAGES) (x : Option Pte) : Special K pend (Function.update f vpn x) := by
  have hsame : ∀ v, UPAGES ≤ v → Function.update f vpn x v = f v := fun v hge => Function.update_of_ne (by omega) _ _
  refine ⟨fun v hv e he => h.held v hv e (by rwa [← hsame v hv]), fun v w hv hw e d he hd => ?_⟩
  exact h.apart v w hv hw e d (by rwa [← hsame v hv]) (by rwa [← hsame w hw])

theorem Special.map (h : Special K pend f) (hc : c ∉ pend) (ha : c ∈ area K) :
    Special K (insert c pend) (Function.update f vpn (some ⟨true, perm, c⟩)) := by
  have hfresh : ∀ v, UPAGES ≤ v → ∀ e, f v = some e → e.pa ≠ c := fun v hv e he heq =>
    (h.held v hv e he).elim (fun hp => hc (heq ▸ hp)) fun hn => hn (heq ▸ ha)
  refine ⟨fun v hv e he => ?_, fun v w hv hw e d he hd heq harea => ?_⟩
  · by_cases hvv : v = vpn
    · subst hvv
      rw [Function.update_self] at he
      cases he
      exact .inl (Set.mem_insert c pend)
    · rw [Function.update_of_ne hvv] at he
      exact (h.held v hv e he).imp_left (Set.mem_insert_of_mem c)
  · by_cases hvv : v = vpn <;> by_cases hww : w = vpn
    · rw [hvv, hww]
    · subst hvv
      rw [Function.update_self] at he
      rw [Function.update_of_ne hww] at hd
      cases he
      exact absurd heq.symm (hfresh w hw d hd)
    · subst hww
      rw [Function.update_self] at hd
      rw [Function.update_of_ne hvv] at he
      cases hd
      exact absurd heq (hfresh v hv e he)
    · rw [Function.update_of_ne hvv] at he
      rw [Function.update_of_ne hww] at hd
      exact h.apart v w hv hw e d he hd heq harea

theorem Special.unmap (h : Special K pend f) (hv : UPAGES ≤ vpn) (he : f vpn = some e) (ha : e.pa ∈ area K) :
    Special K (pend \ {e.pa}) (Function.update f vpn none) := by
  have hne : ∀ v d, Function.update f vpn none v = some d → v ≠ vpn ∧ f v = some d := fun v d hd => by
    by_cases hvv : v = vpn
    · rw [hvv, Function.update_self] at hd
      cases hd
    · rw [Function.update_of_ne hvv] at hd
      exact ⟨hvv, hd⟩
  refine ⟨fun v hge d hd => ?_, fun v w hv hw d d' hd hd' => ?_⟩
  · obtain ⟨hvv, hd⟩ := hne v d hd
    refine (h.held v hge d hd).imp_left fun hp => ⟨hp, fun heq => hvv ?_⟩
    have heq : d.pa = e.pa := heq
    exact h.apart v vpn hge hv d e hd he heq (heq ▸ ha)
  · exact h.apart v w hv hw d d' (hne v d hd).2 (hne w d' hd').2

end Special

section Pages

theorem Keeps.start (h : Pages K roots pend s) (hs : Special K pend (leaf s.mem r)) : Keeps K roots r s s :=
  ⟨pend, h, hs, .refl _ _⟩

theorem kalloc_keeps (h : Keeps K roots r t s) (hr : r ∈ roots) :
    wp kalloc (fun res s' => (res = none ∧ Keeps K roots r t s') ∨ ∃ c, res = some c ∧ Fresh K roots r c t s') anyError s := by
  obtain ⟨pend, hp, hs, hb⟩ := h
  refine wp_imp (kalloc_spec hp) fun res s1 hres => ?_
  rcases hres with ⟨rfl, rfl⟩ | ⟨c, rfl, ha, hc, hp1, hsame⟩
  · exact .inl ⟨rfl, pend, hp, hs, hb⟩
  · refine .inr ⟨c, rfl, pend, hc, ha, hp1, ?_, hb.trans (hsame.leaves.but r)⟩
    rwa [hsame.leaves.leaf r hr]

theorem Fresh.memset (h : Fresh K roots r c t s) (hr : r ∈ roots) (n : ℕ) :
    wp (memset c n) (fun _ s' => Fresh K roots r c t s') anyError s := by
  obtain ⟨pend, hc, ha, hp, hs, hb⟩ := h
  rw [wp_memset]
  obtain ⟨hp1, hsame⟩ := hp.scribble (.inl (Set.mem_insert c pend)) (filled n) fun _ => UInt8.ofNat n
  refine ⟨pend, hc, ha, hp1, ?_, hb.trans (hsame.leaves.but r)⟩
  rwa [hsame.leaves.leaf r hr]

theorem Fresh.kfree (h : Fresh K roots r c t s) (hr : r ∈ roots) :
    wp (kfree K c) (fun _ s' => Keeps K roots r t s') anyError s := by
  obtain ⟨pend, hc, ha, hp, hs, hb⟩ := h
  refine wp_imp (kfree_new hp hc) fun _ s1 h1 => ⟨pend, h1.1, ?_, hb.trans (h1.2.but r)⟩
  rwa [h1.2.leaf r hr]

/-- From `MAXVA` on, `walk` panics. -/
theorem walk_panics {alloc : Bool} {Q : Option (ℕ × Fin 512) → Mem → Prop} (h : MAXVA ≤ va) :
    wp (walk r va alloc) Q anyError s := by
  simp only [walk, if_pos h, wp_throw]
  trivial

theorem vpn_lt (h : vpn * PGSIZE < MAXVA) : vpn < UPAGES + 2 := by
  rw [upages_lt.1]
  simp only [MAXVA, PGSIZE] at h ⊢
  omega

theorem Fresh.mappages (h : Fresh K roots r c t s) (hr : r ∈ roots) (hperm : perm.leaf = true) (vpn : ℕ) :
    wp (mappages r (vpn * PGSIZE) PGSIZE c perm) (fun ok s' =>
      (ok = false ∧ Fresh K roots r c t s') ∨
        (ok = true ∧ Keeps K roots r t s' ∧ leaf s'.mem r vpn = some ⟨true, perm, c⟩)) anyError s := by
  obtain ⟨pend, hc, ha, hp, hs, hb⟩ := h
  by_cases hmax : MAXVA ≤ vpn * PGSIZE
  · have hsize : PGSIZE / PGSIZE = 1 := by decide
    simp only [Vm.mappages, Nat.mul_mod_left, Nat.mod_self, ne_eq, not_true_eq_false, if_false, show PGSIZE ≠ 0 by decide,
      hsize, mapFrom, wp_bind]
    exact walk_panics hmax
  have hlt := vpn_lt (Nat.not_le.mp hmax)
  have hfail : ∀ {s1}, Pages K roots (insert c pend) s1 → SameLeaves roots s s1 → Fresh K roots r c t s1 := fun h1 hl1 =>
    ⟨pend, hc, ha, h1, by rwa [hl1.leaf r hr], hb.trans (hl1.but r)⟩
  by_cases hv : vpn < UPAGES
  · refine wp_mono (mappages_new hp hc hr hv.le hperm) (fun ok s1 h1 => ?_) fun _ _ => trivial
    rcases h1 with ⟨rfl, h1, hl1⟩ | ⟨rfl, -, h1⟩
    · exact .inl ⟨rfl, hfail h1 hl1⟩
    · obtain ⟨h1, hleaf, hbut⟩ := h1 hv
      refine .inr ⟨rfl, ⟨pend, h1, ?_, hb.trans hbut⟩, by rw [hleaf, Function.update_self]⟩
      rw [hleaf]
      exact hs.low hv _
  · refine wp_mono (mappages_special hp hr (Nat.not_lt.mp hv) hlt rfl hperm) (fun ok s1 h1 => ?_) fun _ _ => trivial
    rcases h1 with ⟨rfl, h1, hl1⟩ | ⟨rfl, -, h1, hleaf, hbut⟩
    · exact .inl ⟨rfl, hfail h1 hl1⟩
    · refine .inr ⟨rfl, ⟨_, h1, ?_, hb.trans hbut⟩, by rw [hleaf, Function.update_self]⟩
      rw [hleaf]
      exact hs.map hc ha

end Pages

section Unmap

section High

variable (h : Keeps K roots r t s) (hr : r ∈ roots)

include h hr

/-- Freeing a page that is mapped from the trapframe on. -/
theorem unmapPage_high (hlo : UPAGES ≤ vpn) (hhi : vpn < UPAGES + 2) :
    wp (unmapPage K r (vpn * PGSIZE) true) (fun _ s' => Keeps K roots r t s') anyError s := by
  obtain ⟨pend, hp, hs, hb⟩ := h
  have hvp : vpn < VPAGES := special_lt hhi
  refine unmapPage_rule hhi (fun _ => ⟨pend, hp, hs, hb⟩) fun loc hslot hleaf => ?_
  simp only [if_true, wp_bind, wp_setPte]
  by_cases ha : (s.mem loc.1 loc.2).pa ∈ area K
  · have hpend := (hs.held vpn hlo _ hleaf).resolve_right (not_not.mpr ha)
    refine wp_imp (kfree_spec hp hpend) fun _ s1 h1 => ?_
    obtain ⟨h1, hsame, -⟩ := h1
    have hslot1 : slotAt s1.mem r vpn = some loc := by
      obtain ⟨b, hfb, rfl⟩ := slotAt_some hslot
      rw [slotAt, (hsame.table r hr _ b (by simp) hfb).1]
      rfl
    obtain ⟨hleaf1, hothers⟩ := h1.leaf_write hr hvp hslot1 rfl (e := pteOf 0)
    refine ⟨_, h1.special hr hvp hslot1 rfl hlo (by simp [pteOf]), ?_, (hb.trans (hsame.leaves.but r)).trans hothers⟩
    rw [hleaf1, hsame.leaves.leaf r hr]
    exact hs.unmap hlo hleaf ha
  · have hbad : (s.mem loc.1 loc.2).pa % PGSIZE ≠ 0 ∨ (s.mem loc.1 loc.2).pa < K.kend ∨ PHYSTOP ≤ (s.mem loc.1 loc.2).pa := by
      by_contra hok
      push Not at hok
      exact ha ⟨hok.1, hok.2.1, hok.2.2⟩
    simp only [kfree, if_pos hbad, wp_throw]
    trivial

theorem unmapPage_keeps (vpn : ℕ) :
    wp (unmapPage K r (vpn * PGSIZE) true) (fun _ s' => Keeps K roots r t s') anyError s := by
  by_cases hmax : MAXVA ≤ vpn * PGSIZE
  · simp only [unmapPage, wp_bind]
    exact walk_panics hmax
  · by_cases hv : vpn < UPAGES
    · obtain ⟨pend, hp, hs, hb⟩ := h
      refine wp_imp (unmapPage_user hp hr hv) fun _ s1 h1 => ?_
      obtain ⟨h1, hleaf, hbut⟩ := h1
      refine ⟨pend, h1, ?_, hb.trans hbut⟩
      rw [hleaf]
      exact hs.low hv _
    · exact unmapPage_high h hr (Nat.not_lt.mp hv) (vpn_lt (Nat.not_le.mp hmax))

theorem uvmunmap_keeps (vpn n : ℕ) :
    wp (uvmunmap K r (vpn * PGSIZE) n true) (fun _ s' => Keeps K roots r t s') anyError s := by
  simp only [uvmunmap, Nat.mul_mod_left, ne_eq, not_true_eq_false, if_false]
  refine wp_repeatFrom (fun _ s' => Keeps K roots r t s') h fun k s1 _ _ h1 => ?_
  rw [← Nat.add_mul]
  exact unmapPage_keeps h1 hr _

theorem uvmdealloc_keeps (oldsz newsz : ℕ) :
    wp (uvmdealloc K r oldsz newsz) (fun _ s' => Keeps K roots r t s') anyError s := by
  simp only [uvmdealloc, wp_ite, wp_pure, wp_bind]
  exact ⟨fun _ => h, fun _ => ⟨fun _ => uvmunmap_keeps h hr _ _, fun _ => h⟩⟩

end High

end Unmap

section Map

theorem allocFrom_keeps (hr : r ∈ roots) (hperm : perm.leaf = true) (oldsz newsz n vpn : ℕ) (h : Keeps K roots r t s) :
    wp (allocFrom K r oldsz newsz perm n (vpn * PGSIZE)) (fun _ s' => Keeps K roots r t s') anyError s := by
  induction n generalizing vpn s with
  | zero => exact h
  | succ n ih =>
    simp only [allocFrom, wp_bind]
    refine wp_mono (kalloc_keeps h hr) (fun res s1 h1 => ?_) fun _ => id
    rcases h1 with ⟨rfl, h1⟩ | ⟨c, rfl, h1⟩
    · simp only [wp_bind, wp_discard, wp_pure]
      exact uvmdealloc_keeps h1 hr _ _
    · simp only [wp_bind]
      refine wp_mono (h1.memset hr 0) (fun _ s2 h2 => ?_) fun _ => id
      refine wp_mono (h2.mappages hr hperm vpn) (fun ok s3 h3 => ?_) fun _ => id
      rcases h3 with ⟨rfl, h3⟩ | ⟨rfl, h3, -⟩
      · simp only [Bool.false_eq_true, if_false, wp_bind, wp_discard, wp_pure]
        exact wp_mono (h3.kfree hr) (fun _ s4 h4 => uvmdealloc_keeps h4 hr _ _) fun _ => id
      · simp only [if_true]
        rw [← Nat.succ_mul]
        exact ih (vpn + 1) h3

theorem uvmalloc_keeps (h : Keeps K roots r t s) (hr : r ∈ roots) (oldsz newsz : ℕ) (xperm : Bool × Bool) :
    wp (uvmalloc K r oldsz newsz xperm) (fun _ s' => Keeps K roots r t s') anyError s := by
  simp only [uvmalloc, wp_ite, wp_pure]
  exact ⟨fun _ => h, fun _ => allocFrom_keeps hr rfl _ _ _ _ h⟩

theorem ismapped_keeps (h : Keeps K roots r t s) (va : ℕ) :
    wp (ismapped r va) (fun _ s' => Keeps K roots r t s') anyError s := by
  by_cases hmax : MAXVA ≤ va
  · simp only [ismapped, wp_bind]
    exact walk_panics hmax
  · refine wp_imp (ismapped_exact r (Nat.not_le.mp hmax)) fun _ s1 h1 => ?_
    rw [h1.1]
    exact h

/-- The page a fault maps is one of `r`. -/
theorem vmfault_keeps (h : Keeps K roots r t s) (hr : r ∈ roots) (sz va : ℕ) :
    wp (vmfault K r sz r va) (fun res s' => Keeps K roots r t s' ∧
      ∀ pa, res = some pa → ∃ e, leaf s'.mem r (va / PGSIZE) = some e ∧ e.pa = pa) anyError s := by
  simp only [vmfault, wp_ite, wp_pure, wp_bind]
  refine ⟨fun _ => ⟨h, by simp⟩, fun _ => ?_⟩
  refine wp_mono (ismapped_keeps h _) (fun res s1 h1 => ⟨fun _ => ⟨h1, by simp⟩, fun _ => ?_⟩) fun _ => id
  refine wp_mono (kalloc_keeps h1 hr) (fun res s2 h2 => ?_) fun _ => id
  rcases h2 with ⟨rfl, h2⟩ | ⟨c, rfl, h2⟩
  · exact ⟨h2, by simp⟩
  · simp only [wp_bind, wp_ite, wp_pure]
    refine wp_mono (h2.memset hr 0) (fun _ s3 h3 => ?_) fun _ => id
    refine wp_mono (h3.mappages hr rfl (va / PGSIZE)) (fun ok s4 h4 => ?_) fun _ => id
    rcases h4 with ⟨rfl, h4⟩ | ⟨rfl, h4, hleaf⟩
    · exact ⟨by simp, fun _ => wp_mono (h4.kfree hr) (fun _ _ h5 => ⟨h5, by simp⟩) fun _ => id⟩
    · exact ⟨fun _ => ⟨h4, fun pa hpa => ⟨_, hleaf, Option.some.inj hpa⟩⟩, fun hn => absurd rfl hn⟩

theorem userPage_keeps (h : Keeps K roots r t s) (hr : r ∈ roots) (sz va : ℕ) :
    wp (userPage K r sz r va) (fun res s' => Keeps K roots r t s' ∧
      ∀ pa, res = some pa → ∃ e, leaf s'.mem r (va / PGSIZE) = some e ∧ e.pa = pa) anyError s := by
  simp only [userPage, wp_bind]
  refine wp_imp (walkaddr_exact r) fun res s1 hres => ?_
  obtain ⟨hs1, hsome, -⟩ := hres
  subst s1
  cases res with
  | some pa => exact ⟨h, fun pa hpa => (hsome pa hpa).2.imp fun _ hp => ⟨hp.1, hp.2.2⟩⟩
  | none => exact vmfault_keeps h hr sz va

end Map

section Write

/-- Bytes are written to a page that `r` maps. -/
theorem Keeps.poke {e : Pte} (h : Keeps K roots r t s) (hr : r ∈ roots) (he : leaf s.mem r vpn = some e) (page : ℕ → UInt8) :
    Keeps K roots r t { s with data := Function.update s.data e.pa page } := by
  obtain ⟨pend, hp, hs, hb⟩ := h
  refine ⟨pend, hp.poke _, hs, hb.trans ?_⟩
  by_cases hv : vpn < UPAGES
  · exact (hp.poked hr hv he page).but
  · refine ⟨fun _ _ => rfl, fun r' hr' w hw d hd => Function.update_of_ne (fun heq => ?_) _ _⟩
    obtain ⟨ha, -, hn⟩ := hp.user hr'.1 hw hd
    rw [heq] at ha hn
    exact (hs.held vpn (Nat.not_lt.mp hv) e he).elim hn fun h => h ha

theorem copyoutFrom_keeps (hr : r ∈ roots) (sz fuel dstva : ℕ) (src : List UInt8) (h : Keeps K roots r t s) :
    wp (copyoutFrom K r sz r fuel dstva src) (fun _ s' => Keeps K roots r t s') anyError s := by
  induction fuel generalizing dstva src s with
  | zero => exact h
  | succ fuel ih =>
    simp only [copyoutFrom, wp_ite, wp_pure, wp_bind]
    refine ⟨fun _ => h, fun _ => ⟨fun _ => h, fun hmax => ?_⟩⟩
    refine wp_mono (userPage_keeps h hr sz _) (fun res s1 h1 => ?_) fun _ => id
    obtain ⟨h1, hpa⟩ := h1
    cases res with
    | none => exact h1
    | some pa =>
      obtain ⟨e, he, rfl⟩ := hpa pa rfl
      simp only [wp_bind]
      refine wp_imp (walk_false r (Nat.not_le.mp hmax)) fun res s2 hres => ?_
      obtain ⟨hs2, rfl⟩ := hres
      subst s2
      cases slotAt s1.mem r (pgRoundDown dstva / PGSIZE) with
      | none => trivial
      | some loc =>
        simp only [wp_bind, wp_readPte, wp_ite, wp_pure, wp_memmove]
        exact ⟨fun _ => h1, fun _ => ih _ _ (h1.poke hr he _)⟩

end Write

end Memory

end Xv6.Vm
