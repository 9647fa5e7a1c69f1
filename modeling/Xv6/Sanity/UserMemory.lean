import Xv6.Sanity.Freewalk
import Xv6.Sanity.PageBudget

/-! User memory: what `uvmalloc`, `uvmdealloc`, `uvmcopy`, `uvmfree`, `vmfault`, `copyout` and `copyin` do to the
mappings of a page table. None of them loses or duplicates a page, whether or not memory runs out on the way. -/

namespace Xv6.Vm

open Wp Forest

variable {K : Kernel} {roots pend : Set ℕ} {s s' t : Mem} {r c va vpn : ℕ}

/-- The number of pages of `sz` bytes. -/
def npages (sz : ℕ) : ℕ := (sz + PGSIZE - 1) / PGSIZE

theorem pgRoundUp_eq {sz : ℕ} (h : sz ≤ MAXVA) : pgRoundUp sz = npages sz * PGSIZE := by
  unfold pgRoundUp npages
  rw [Nat.mod_eq_of_lt (by simp only [MAXVA, PGSIZE] at h ⊢; omega)]

theorem page_lt (h : va < MAXVA) : va / PGSIZE < VPAGES := by
  simp only [MAXVA, PGSIZE, VPAGES] at h ⊢
  omega

theorem page_lt_upages (h : va < TRAPFRAME) : va / PGSIZE < UPAGES := by
  rw [Nat.div_lt_iff_lt_mul (by decide), trapframe_eq.1]
  exact h

theorem npages_le_iff {sz : ℕ} : npages sz ≤ UPAGES ↔ sz ≤ TRAPFRAME := by
  rw [← trapframe_eq.1]
  simp only [npages, PGSIZE]
  omega

theorem npages_le {sz : ℕ} (h : sz ≤ TRAPFRAME) : npages sz ≤ UPAGES := npages_le_iff.mpr h

theorem npages_mul (n : ℕ) : npages (n * PGSIZE) = n := by
  simp only [npages, PGSIZE]
  omega

theorem npages_mono {a b : ℕ} (h : a ≤ b) : npages a ≤ npages b :=
  Nat.div_le_div_right (by omega)

/-- A page table whose user memory is below page `n`. -/
def Fits (f : ℕ → Option Pte) (n : ℕ) : Prop := ∀ v, n ≤ v → v ≠ UPAGES → v ≠ UPAGES + 1 → f v = none

/-- A mapping is one of user memory or of the kernel; in either case a leaf. -/
theorem Pages.leaf_perm {pte : Pte} (h : Pages K roots pend s) (hr : r ∈ roots) (hl : leaf s.mem r vpn = some pte) :
    pte.v = true ∧ pte.perm.leaf = true := by
  unfold leaf at hl
  split_ifs at hl with hv
  obtain ⟨loc, hslot, hpte⟩ := Option.bind_eq_some_iff.mp hl
  split_ifs at hpte with hlv
  cases hpte
  obtain ⟨b, hb, rfl⟩ := slotAt_some hslot
  exact ⟨hlv, (h.shape r hr _ b _ (by simp) hb hlv).mpr rfl⟩

section NewPages

variable {perm : Perm}

/-- Mapping a new page: it becomes user memory, or it is still to be freed. -/
theorem mappages_new (h : Pages K roots (insert c pend) s) (hcp : c ∉ pend) (hr : r ∈ roots) (hv : vpn ≤ UPAGES)
    (hperm : perm.leaf = true) :
    wp (mappages r (vpn * PGSIZE) PGSIZE c perm) (fun ok s' =>
      (ok = false ∧ Pages K roots (insert c pend) s' ∧ SameLeaves roots s s') ∨
      (ok = true ∧ leaf s.mem r vpn = none ∧ (vpn < UPAGES → Pages K roots pend s' ∧
        leaf s'.mem r = Function.update (leaf s.mem r) vpn (some ⟨true, perm, c⟩) ∧ SameBut roots r s s')))
      (fun e => e = "mappages: remap" ∧ leaf s.mem r vpn ≠ none) s := by
  by_cases hlt : vpn < UPAGES
  · refine wp_mono (mappages_user h hr hlt (Set.mem_insert c pend) hperm) (fun ok s' hs' => ?_) fun e he => he
    rcases hs' with hfail | ⟨rfl, hnone, h', hleaf, hbut⟩
    · exact .inl hfail
    · rw [Set.insert_sdiff_self_of_notMem hcp] at h'
      exact .inr ⟨rfl, hnone, fun _ => ⟨h', hleaf, hbut⟩⟩
  · refine wp_mono (mappages_special h hr (by omega) (by omega) rfl hperm) (fun ok s' hs' => ?_) fun e he => he
    rcases hs' with hfail | ⟨rfl, hnone, -⟩
    · exact .inl hfail
    · exact .inr ⟨rfl, hnone, fun hn => absurd hn hlt⟩

/-- Freeing a new page. -/
theorem kfree_new (h : Pages K roots (insert c pend) s) (hcp : c ∉ pend) :
    wp (kfree K c) (fun _ s' => Pages K roots pend s' ∧ SameLeaves roots s s') never s := by
  refine wp_imp (kfree_spec h (Set.mem_insert c pend)) fun _ s' hs' => ?_
  obtain ⟨h', hsame, -⟩ := hs'
  rw [Set.insert_sdiff_self_of_notMem hcp] at h'
  exact ⟨h', hsame.leaves⟩

end NewPages

section Spared

/-- Only pages that end up free are written, and none is taken. -/
structure OnlyFreed (s s' : Mem) : Prop where
  freelist : s.freelist ⊆ s'.freelist
  data : ∀ b ∉ s'.freelist, s'.data b = s.data b

theorem OnlyFreed.refl (s : Mem) : OnlyFreed s s := ⟨fun _ => id, fun _ _ => rfl⟩

theorem OnlyFreed.trans (h : OnlyFreed s s') (h' : OnlyFreed s' t) : OnlyFreed s t where
  freelist := fun _ hb => h'.freelist (h.freelist hb)
  data := fun b hb => (h'.data b hb).trans (h.data b fun hin => hb (h'.freelist hin))

theorem kfree_onlyFreed (pa : ℕ) : wp (kfree K pa) (fun _ s' => OnlyFreed s s') (fun _ => True) s := by
  simp only [kfree, wp_ite, wp_throw, wp_bind, wp_memset, wp_modify]
  refine ⟨fun _ => trivial, fun _ => ⟨fun b hb => List.mem_cons_of_mem pa hb, fun b hb => ?_⟩⟩
  exact Function.update_of_ne (List.ne_of_not_mem_cons hb) _ _

theorem walk_same : wp (walk r va false) (fun _ s' => s' = s) (fun _ => True) s := by
  by_cases hva : va < MAXVA
  · exact wp_imp (walk_false r hva) fun _ _ h => h.1
  · simp only [walk, if_pos (Nat.not_lt.mp hva), wp_throw]

theorem unmapPage_onlyFreed (doFree : Bool) :
    wp (unmapPage K r va doFree) (fun _ s' => OnlyFreed s s') (fun _ => True) s := by
  rw [unmapPage, wp_bind]
  refine wp_mono walk_same (fun res s1 hs1 => ?_) fun _ => id
  subst s1
  cases res with
  | none => exact .refl s
  | some loc =>
    cases doFree with
    | true =>
      simp only [wp_bind, wp_readPte, wp_ite, wp_pure, wp_setPte, if_true]
      refine ⟨fun _ => wp_mono (kfree_onlyFreed _) (fun _ s1 h1 => ⟨h1.freelist, h1.data⟩) fun _ => id, fun _ => .refl s⟩
    | false =>
      simp only [wp_bind, wp_readPte, wp_ite, wp_pure, wp_setPte, Bool.false_eq_true, if_false]
      exact ⟨fun _ => ⟨fun _ => id, fun _ _ => rfl⟩, fun _ => .refl s⟩

theorem uvmunmap_onlyFreed (n : ℕ) (doFree : Bool) :
    wp (uvmunmap K r va n doFree) (fun _ s' => OnlyFreed s s') (fun _ => True) s := by
  simp only [uvmunmap, wp_ite, wp_throw]
  refine ⟨fun _ => trivial, fun _ => wp_repeatFrom (fun _ t => OnlyFreed s t) (.refl s) fun k t _ _ ht => ?_⟩
  exact wp_mono (unmapPage_onlyFreed doFree) (fun _ t' ht' => ht.trans ht') fun _ => id

theorem uvmdealloc_onlyFreed (oldsz newsz : ℕ) :
    wp (uvmdealloc K r oldsz newsz) (fun _ s' => OnlyFreed s s') (fun _ => True) s := by
  simp only [uvmdealloc, wp_ite, wp_pure, wp_bind]
  exact ⟨fun _ => .refl s, fun _ => ⟨fun _ => uvmunmap_onlyFreed _ true, fun _ => .refl s⟩⟩

theorem freewalk_onlyFreed (levels pagetable : ℕ) :
    wp (freewalk K levels pagetable) (fun _ s' => OnlyFreed s s') (fun _ => True) s := by
  induction levels generalizing pagetable s with
  | zero => trivial
  | succ levels ih =>
    rw [freewalk, wp_bind]
    refine wp_mono (wp_repeatFrom (fun _ t => OnlyFreed s t) (.refl s) fun k t _ _ ht => ?_)
      (fun _ t ht => wp_mono (kfree_onlyFreed _) (fun _ t' ht' => ht.trans ht') fun _ => id) fun _ => id
    simp only [wp_bind, wp_readPte, wp_ite, wp_throw, wp_setPte, wp_pure]
    refine ⟨fun _ => wp_mono (ih _) (fun _ t' ht' => ?_) fun _ => id, fun _ => ⟨fun _ => trivial, fun _ => ht⟩⟩
    exact ht.trans ⟨ht'.freelist, ht'.data⟩

theorem uvmfree_onlyFreed (sz : ℕ) : wp (uvmfree K r sz) (fun _ s' => OnlyFreed s s') (fun _ => True) s := by
  simp only [uvmfree, wp_ite, wp_bind]
  refine ⟨fun _ => wp_mono (uvmunmap_onlyFreed _ true) (fun _ s1 h1 => ?_) fun _ => id, fun _ => freewalk_onlyFreed 3 r⟩
  exact wp_mono (freewalk_onlyFreed 3 r) (fun _ s2 h2 => h1.trans h2) fun _ => id

/-- Free pages are taken, and then perhaps pages are given back. -/
def Spared (s s' : Mem) : Prop := ∃ t, OnlyFree s t ∧ OnlyFreed t s'

/-- What is neither free before nor after is as it was. -/
theorem Spared.data (h : Spared s s') (hs : c ∉ s.freelist) (hs' : c ∉ s'.freelist) : s'.data c = s.data c := by
  obtain ⟨t, hf, hd⟩ := h
  exact (hd.data c hs').trans (hf.data c hs)

theorem Pages.held_notMem (h : Pages K roots pend s) (hc : c ∈ pend) : c ∉ s.freelist := by
  simpa using (h.owned.pending hc).2

theorem Spared.held {roots' : Set ℕ} (h : Spared s s') (hp : Pages K roots pend s) (hp' : Pages K roots' pend s') :
    ∀ c ∈ pend, s'.data c = s.data c := fun _ hc => h.data (hp.held_notMem hc) (hp'.held_notMem hc)

end Spared

section Free

theorem uvmfree_spec {sz : ℕ} (h : Pages K roots pend s) (hr : r ∈ roots) (hsz : sz ≤ TRAPFRAME)
    (hfits : ∀ v, npages sz ≤ v → leaf s.mem r v = none) :
    wp (uvmfree K r sz) (fun _ s' => Pages K (roots \ {r}) pend s' ∧ SameLeaves (roots \ {r}) s s') never s := by
  simp only [uvmfree]
  have hround : pgRoundUp sz / PGSIZE = npages sz := by
    rw [pgRoundUp_eq (hsz.trans trapframe_eq.2), Nat.mul_div_cancel _ (by decide)]
  by_cases hpos : 0 < sz
  · simp only [if_pos hpos, wp_bind, hround]
    have hle : 0 + npages sz ≤ UPAGES := by
      have := npages_le hsz
      omega
    have hun := uvmunmap_user h hr hle
    rw [Nat.zero_mul] at hun
    refine wp_imp hun fun _ s1 h1 => ?_
    obtain ⟨h1, hleaf, hothers⟩ := h1
    refine wp_imp (freewalk_empty h1 hr fun v => ?_) fun _ s2 h2 => ⟨h2.1, hothers.trans h2.2⟩
    rw [hleaf]
    unfold without
    split_ifs with hin
    · rfl
    · exact hfits v (by omega)
  · obtain rfl : sz = 0 := by omega
    simp only [if_neg hpos]
    exact freewalk_empty h hr fun v => hfits v (by simp [npages, PGSIZE])

theorem procFreepagetable_spec {sz : ℕ} (h : Pages K roots pend s) (hr : r ∈ roots) (hsz : sz ≤ TRAPFRAME)
    (hfits : Fits (leaf s.mem r) (npages sz)) :
    wp (uvmunmap K r TRAMPOLINE 1 false >>= fun _ => uvmunmap K r TRAPFRAME 1 false >>= fun _ => uvmfree K r sz)
      (fun _ s' => Pages K (roots \ {r}) pend s' ∧ SameLeaves (roots \ {r}) s s') never s := by
  simp only [wp_bind]
  refine wp_imp (uvmunmap_special h hr (by omega) (by omega) trampoline_eq) fun _ s1 h1 => ?_
  obtain ⟨h1, hleaf1, hothers1⟩ := h1
  refine wp_imp (uvmunmap_special h1 hr le_rfl (by omega) trapframe_eq.1) fun _ s2 h2 => ?_
  obtain ⟨h2, hleaf2, hothers2⟩ := h2
  refine wp_imp (uvmfree_spec h2 hr hsz fun v hv => ?_) fun _ s3 h3 => ⟨h3.1, (hothers1.trans hothers2).trans h3.2⟩
  rw [hleaf2, hleaf1]
  by_cases hv0 : v = UPAGES
  · rw [hv0, Function.update_self]
  · by_cases hv1 : v = UPAGES + 1
    · rw [Function.update_of_ne hv0, hv1, Function.update_self]
    · rw [Function.update_of_ne hv0, Function.update_of_ne hv1]
      exact hfits v hv hv0 hv1

end Free

section Grow

theorem uvmdealloc_spec {oldsz newsz : ℕ} (h : Pages K roots pend s) (hr : r ∈ roots) (hold : oldsz ≤ TRAPFRAME) :
    wp (uvmdealloc K r oldsz newsz) (fun res s' => res = min oldsz newsz ∧ Pages K roots pend s' ∧ SameBut roots r s s' ∧
      leaf s'.mem r = without (leaf s.mem r) (npages res) (npages oldsz)) never s := by
  simp only [uvmdealloc]
  by_cases hge : oldsz ≤ newsz
  · simp only [if_pos hge, wp_pure]
    exact ⟨(Nat.min_eq_left hge).symm, h, .refl _ _, (without_empty _ _).symm⟩
  · have hnew : newsz ≤ oldsz := by omega
    have hmin : newsz = min oldsz newsz := (Nat.min_eq_right hnew).symm
    have hmono := npages_mono hnew
    simp only [if_neg hge, pgRoundUp_eq (hold.trans trapframe_eq.2), pgRoundUp_eq (hnew.trans (hold.trans trapframe_eq.2))]
    have hsub : (npages oldsz * PGSIZE - npages newsz * PGSIZE) / PGSIZE = npages oldsz - npages newsz := by
      rw [← Nat.sub_mul, Nat.mul_div_cancel _ (by decide)]
    rw [hsub]
    by_cases hlt : npages newsz * PGSIZE < npages oldsz * PGSIZE
    · simp only [if_pos hlt, wp_bind]
      refine wp_imp (uvmunmap_user h hr (by have := npages_le hold; omega)) fun _ s1 h1 => ?_
      obtain ⟨h1, hleaf, hothers⟩ := h1
      exact ⟨hmin, h1, hothers, by rw [hleaf, Nat.add_sub_cancel' hmono]⟩
    · simp only [if_neg hlt, wp_pure]
      have heq : npages newsz = npages oldsz := by
        have := Nat.le_of_mul_le_mul_right (Nat.not_lt.mp hlt) (by decide : 0 < PGSIZE)
        omega
      exact ⟨hmin, h, .refl _ _, by rw [heq, without_empty]⟩

/-- `f` with the pages from `lo` to `hi` mapped as `perm` says. -/
structure Filled (f g : ℕ → Option Pte) (lo hi : ℕ) (perm : Perm) : Prop where
  outside : ∀ v, ¬ (lo ≤ v ∧ v < hi) → g v = f v
  inside : ∀ v, lo ≤ v → v < hi → ∃ pa, g v = some ⟨true, perm, pa⟩

theorem Filled.without {f g : ℕ → Option Pte} {lo hi : ℕ} {perm : Perm} (h : Filled f g lo hi perm)
    (hnone : ∀ v, lo ≤ v → v < hi → f v = none) : without g lo hi = f := by
  funext v
  unfold Vm.without
  split_ifs with hin
  · exact (hnone v hin.1 hin.2).symm
  · exact h.outside v hin

theorem Filled.succ {f g : ℕ → Option Pte} {lo hi pa : ℕ} {perm : Perm} (h : Filled f g lo hi perm) (hle : lo ≤ hi) :
    Filled f (Function.update g hi (some ⟨true, perm, pa⟩)) lo (hi + 1) perm := by
  refine ⟨fun v hv => ?_, fun v hlo hhi => ?_⟩
  · rw [Function.update_of_ne (by omega)]
    exact h.outside v (by omega)
  · by_cases hv : v = hi
    · exact ⟨pa, by rw [hv, Function.update_self]⟩
    · rw [Function.update_of_ne hv]
      exact h.inside v hlo (by omega)

/-- Growing past the trapframe ends in its mapping, with all memory below mapped. -/
def Overrun (K : Kernel) (roots : Set ℕ) (r lo newsz : ℕ) (s : Mem) (e : String) : Prop :=
  e = "mappages: remap" ∧ TRAPFRAME < newsz ∧ ∃ pend t perm, Pages K roots pend t ∧ Filled (leaf s.mem r) (leaf t.mem r) lo UPAGES perm

/-- The pages of `r` from `lo` to `hi` are zero. -/
def Zero (s : Mem) (r lo hi : ℕ) : Prop := ∀ v, lo ≤ v → v < hi → ∀ e, leaf s.mem r v = some e → ∀ o, s.data e.pa o = 0

/-- Since `s`, free pages have been mapped from `lo` to `v`, and they are zero. -/
structure Growing (K : Kernel) (roots pend : Set ℕ) (r lo v : ℕ) (perm : Perm) (s t : Mem) : Prop where
  pages : Pages K roots pend t
  but : SameBut roots r s t
  free : OnlyFree s t
  filled : Filled (leaf s.mem r) (leaf t.mem r) lo v perm
  zero : Zero t r lo v

/-- No page is mapped in the end. -/
structure Undone (K : Kernel) (roots pend : Set ℕ) (r : ℕ) (s s' : Mem) : Prop where
  pages : Pages K roots pend s'
  but : SameBut roots r s s'
  spared : Spared s s'
  leaf : leaf s'.mem r = leaf s.mem r

section Alloc

variable {lo v newsz : ℕ} {perm : Perm} (hr : r ∈ roots) (hnone : ∀ w, lo ≤ w → w < UPAGES → leaf s.mem r w = none)

include hr hnone

/-- The way out when memory runs out: what was mapped is freed again. -/
theorem allocFrom_undo {u : Mem} (hlo : lo ≤ v) (hv : v ≤ UPAGES) (h : Growing K roots pend r lo v perm s t) (hfree : Spared s u)
    (hp : Pages K roots pend u) (hl : SameLeaves roots t u) : wp (uvmdealloc K r (v * PGSIZE) (lo * PGSIZE))
      (fun _ s' => Undone K roots pend r s s') never u := by
  have htf : v * PGSIZE ≤ TRAPFRAME := by
    rw [← trapframe_eq.1]
    exact Nat.mul_le_mul_right _ hv
  refine wp_mono (wp_and (uvmdealloc_spec hp hr htf) (uvmdealloc_onlyFreed _ _)) (fun res t' ht' => ?_) fun _ he => he.1
  obtain ⟨⟨rfl, h', hbut', hleaf⟩, hfreed⟩ := ht'
  obtain ⟨m, hm, hmu⟩ := hfree
  rw [Nat.min_eq_right (Nat.mul_le_mul_right _ hlo), npages_mul, npages_mul, hl.leaf r hr,
    h.filled.without fun w h1 h2 => hnone w h1 (by omega)] at hleaf
  exact ⟨h', (h.but.trans (hl.but r)).trans hbut', ⟨m, hm, hmu.trans hfreed⟩, hleaf⟩

theorem allocFrom_spec (hperm : perm.leaf = true) (htf : leaf s.mem r UPAGES ≠ none) (n v : ℕ) (hlo : lo ≤ v) (hv : v ≤ UPAGES)
    (hn : v + n = max lo (npages newsz)) (h : Growing K roots pend r lo v perm s t) :
    wp (allocFrom K r (lo * PGSIZE) newsz perm n (v * PGSIZE)) (fun res s' => (res = 0 ∧ Undone K roots pend r s s') ∨
      (res = newsz ∧ newsz ≤ TRAPFRAME ∧ Growing K roots pend r lo (max lo (npages newsz)) perm s s'))
      (Overrun K roots r lo newsz s) t := by
  induction n generalizing v t with
  | zero =>
    have hsz : newsz ≤ TRAPFRAME := npages_le_iff.mp (by omega)
    rw [Nat.add_zero] at hn
    exact .inr ⟨rfl, hsz, hn ▸ h⟩
  | succ n ih =>
    simp only [allocFrom, wp_bind]
    refine wp_mono (wp_and (kalloc_spec h.pages) kalloc_free) (fun res t1 hres => ?_) fun _ he => he.1.elim
    obtain ⟨⟨rfl, rfl⟩ | ⟨c, rfl, -, hcp, h1, hsame1⟩, hfree1, -, hin1⟩ := hres
    · simp only [wp_bind, wp_discard, wp_pure]
      refine wp_mono (allocFrom_undo hr hnone hlo hv h ⟨_, h.free, .refl _⟩ h.pages (.refl _ _)) (fun _ t' ht' => ?_) fun _ => False.elim
      exact .inl ⟨trivial, ht'⟩
    · simp only [wp_bind, wp_memset]
      obtain ⟨hc, -, hc1⟩ := hin1 c rfl
      obtain ⟨h2, hsame2⟩ := h1.scribble (b := c) (.inl (Set.mem_insert _ _)) (filled 0) fun _ => UInt8.ofNat 0
      have hl2 := (hsame1.trans hsame2).leaves
      have hfree2 := hfree1.memset hc (filled 0) fun _ => UInt8.ofNat 0
      have hfill2 := hl2.leaf r hr ▸ h.filled
      refine wp_mono (wp_and (mappages_new h2 hcp hr hv hperm) (mappages_onlyFree _ _ _)) (fun ok t3 h3 => ?_) fun e he => ?_
      · obtain ⟨⟨rfl, h3, hl3⟩ | ⟨rfl, hunmapped, h3⟩, hfree3⟩ := h3
        · simp only [Bool.false_eq_true, if_false, wp_bind, wp_discard, wp_pure]
          refine wp_mono (wp_and (kfree_new h3 hcp) (kfree_onlyFreed c)) (fun _ t4 h4 => ?_) fun _ he => he.1.elim
          obtain ⟨⟨h4, hl4⟩, hfreed⟩ := h4
          refine wp_mono (allocFrom_undo hr hnone hlo hv h ⟨t3, h.free.trans (hfree2.trans hfree3), hfreed⟩ h4
            ((hl2.trans hl3).trans hl4)) (fun _ t' ht' => ?_) fun _ => False.elim
          exact .inl ⟨trivial, ht'⟩
        · have hlt : v < UPAGES := by
            rcases Nat.lt_or_eq_of_le hv with hlt | rfl
            · exact hlt
            · rw [hfill2.outside UPAGES (by omega)] at hunmapped
              exact absurd hunmapped htf
          obtain ⟨h3, hleaf3, hbut3⟩ := h3 hlt
          simp only [if_true]
          rw [show v * PGSIZE + PGSIZE = (v + 1) * PGSIZE by rw [Nat.add_mul, Nat.one_mul]]
          refine ih (v + 1) (by omega) hlt (by omega) ⟨h3, (h.but.trans (hl2.but r)).trans hbut3,
            h.free.trans (hfree2.trans hfree3), by rw [hleaf3]; exact hfill2.succ hlo, fun w hw1 hw2 e he o => ?_⟩
          rw [hleaf3] at he
          by_cases hwv : w = v
          · rw [hwv, Function.update_self] at he
            cases he
            rw [hfree3.data c (hc1 h.pages.nodup)]
            simp
          · rw [Function.update_of_ne hwv, hl2.leaf r hr] at he
            rw [(hfree2.trans hfree3).data e.pa (h.pages.user hr (by omega) he).2.1]
            exact h.zero w hw1 (by omega) e he o
      · obtain ⟨⟨rfl, hmapped⟩, -⟩ := he
        -- only the trapframe is in the way
        have heq : v = UPAGES := by
          by_contra hne
          rw [hfill2.outside v (by omega)] at hmapped
          exact hmapped (hnone v hlo (by omega))
        subst heq
        have hpages : UPAGES < npages newsz := by omega
        exact ⟨rfl, Nat.not_le.mp (mt npages_le_iff.mpr (Nat.not_le.mpr hpages)), _, _, perm, h2, hfill2⟩

end Alloc

/-- `uvmalloc` maps new pages up to the new size, or leaves the mappings as they were. -/
theorem uvmalloc_spec {oldsz newsz : ℕ} {xperm : Bool × Bool} (h : Pages K roots pend s) (hr : r ∈ roots) (hsz : oldsz ≤ TRAPFRAME)
    (hnone : ∀ v, npages oldsz ≤ v → v < UPAGES → leaf s.mem r v = none) (htf : leaf s.mem r UPAGES ≠ none) :
    wp (uvmalloc K r oldsz newsz xperm) (fun res s' => Pages K roots pend s' ∧ SameBut roots r s s' ∧ Spared s s' ∧
      ((res = oldsz ∧ newsz < oldsz ∧ leaf s'.mem r = leaf s.mem r) ∨ (res = 0 ∧ leaf s'.mem r = leaf s.mem r) ∨
        (res = newsz ∧ oldsz ≤ newsz ∧ newsz ≤ TRAPFRAME ∧ Filled (leaf s.mem r) (leaf s'.mem r) (npages oldsz)
          (npages newsz) ⟨true, xperm.1, xperm.2, true⟩ ∧ Zero s' r (npages oldsz) (npages newsz))))
      (Overrun K roots r (npages oldsz) newsz s) s := by
  simp only [uvmalloc]
  by_cases hlt : newsz < oldsz
  · simp only [if_pos hlt, wp_pure]
    exact ⟨h, .refl _ _, ⟨s, .refl s, .refl s⟩, .inl ⟨trivial, hlt, trivial⟩⟩
  · have hmono := npages_mono (Nat.not_lt.mp hlt)
    have hmax : max (npages oldsz) (npages newsz) = npages newsz := Nat.max_eq_right hmono
    have hcount : (newsz - npages oldsz * PGSIZE + PGSIZE - 1) / PGSIZE = npages newsz - npages oldsz := by
      simp only [npages, PGSIZE] at *
      omega
    simp only [if_neg hlt, pgRoundUp_eq (hsz.trans trapframe_eq.2), hcount]
    refine wp_mono (allocFrom_spec hr hnone rfl htf _ _ le_rfl (npages_le hsz) (by omega) ⟨h, .refl _ _, .refl s,
      ⟨fun _ _ => rfl, fun v h1 h2 => by omega⟩, fun v h1 h2 => by omega⟩) (fun res s' hs' => ?_) fun e he => he
    rcases hs' with ⟨rfl, hu⟩ | ⟨rfl, hle, hg⟩
    · exact ⟨hu.pages, hu.but, hu.spared, .inr (.inl ⟨rfl, hu.leaf⟩)⟩
    · rw [hmax] at hg
      exact ⟨hg.pages, hg.but, ⟨s', hg.free, .refl s'⟩, .inr (.inr ⟨rfl, by omega, hle, hg.filled, hg.zero⟩)⟩

end Grow

section Lazy

/-- `r` maps what it has mapped and perhaps more below page `n`; the other page tables are as before. -/
structure Grown (roots : Set ℕ) (r n : ℕ) (s s' : Mem) : Prop where
  but : ∀ r' ∈ roots, r' ≠ r → leaf s'.mem r' = leaf s.mem r'
  above : ∀ v, n ≤ v → leaf s'.mem r v = leaf s.mem r v
  kept : ∀ v, leaf s.mem r v ≠ none → leaf s'.mem r v = leaf s.mem r v

theorem SameLeaves.grown (h : SameLeaves roots s s') (hr : r ∈ roots) (n : ℕ) : Grown roots r n s s' :=
  ⟨fun r' hr' _ => h.leaf r' hr', fun v _ => by rw [h.leaf r hr], fun v _ => by rw [h.leaf r hr]⟩

theorem Grown.trans {n : ℕ} {s'' : Mem} (h : Grown roots r n s s') (h' : Grown roots r n s' s'') : Grown roots r n s s'' where
  but := fun r' hr' hne => (h'.but r' hr' hne).trans (h.but r' hr' hne)
  above := fun v hv => (h'.above v hv).trans (h.above v hv)
  kept := fun v hv => by
    rw [h'.kept v (by rw [h.kept v hv]; exact hv), h.kept v hv]

theorem walkaddr_exact (r : ℕ) : wp (walkaddr r va) (fun res s' => s' = s ∧
    (∀ pa, res = some pa → va < MAXVA ∧ ∃ e, leaf s.mem r (va / PGSIZE) = some e ∧ e.perm.u = true ∧ e.pa = pa) ∧
    (res = none → va < MAXVA → ∀ e, leaf s.mem r (va / PGSIZE) = some e → e.perm.u = false)) never s := by
  simp only [walkaddr, wp_ite, wp_pure, wp_bind]
  refine ⟨fun hge => ⟨trivial, by simp, fun _ hlt => absurd hlt (Nat.not_lt.mpr hge)⟩, fun hlt => ?_⟩
  have hlt := Nat.not_le.mp hlt
  refine wp_imp (walk_false r hlt) fun res s1 hres => ?_
  obtain ⟨hs1, rfl⟩ := hres
  subst s1
  cases hslot : slotAt s.mem r (va / PGSIZE) with
  | none => exact ⟨rfl, by simp, fun _ _ e he => by rw [leaf_of_none hslot] at he; cases he⟩
  | some loc =>
    have hleaf := leaf_of_slot (page_lt hlt) hslot
    simp only [wp_bind, wp_readPte, wp_ite, wp_pure]
    refine ⟨fun hv => ?_, fun hv => ⟨trivial, by simp, fun _ _ e he => ?_⟩⟩
    · obtain ⟨hvalid, huser⟩ := Bool.and_eq_true_iff.mp hv
      refine ⟨trivial, fun pa hpa => ⟨hlt, s.mem loc.1 loc.2, ?_, huser, Option.some.inj hpa⟩, by simp⟩
      rw [hleaf, if_pos hvalid]
    · rw [hleaf] at he
      split_ifs at he with hvalid
      obtain rfl := Option.some.inj he
      simpa [hvalid] using hv

/-- A page that is mapped for the user is found. -/
theorem walkaddr_mapped {pte : Pte} (hva : va < MAXVA) (hl : leaf s.mem r (va / PGSIZE) = some pte) (hu : pte.perm.u = true) :
    wp (walkaddr r va) (fun res s' => s' = s ∧ res = some pte.pa) never s := by
  refine wp_imp (walkaddr_exact r) fun res s1 hres => ?_
  obtain ⟨rfl, hsome, hnone⟩ := hres
  cases res with
  | none =>
    rw [hnone rfl hva pte hl] at hu
    cases hu
  | some pa =>
    obtain ⟨-, e, he, -, rfl⟩ := hsome pa rfl
    obtain rfl := Option.some.inj (hl.symm.trans he)
    exact ⟨rfl, rfl⟩

theorem ismapped_exact (r : ℕ) (hva : va < MAXVA) :
    wp (ismapped r va) (fun res s' => s' = s ∧ (res = true ↔ leaf s.mem r (va / PGSIZE) ≠ none)) never s := by
  simp only [ismapped, wp_bind]
  refine wp_imp (walk_false r hva) fun res s1 hres => ?_
  obtain ⟨hs1, rfl⟩ := hres
  subst s1
  cases hslot : slotAt s.mem r (va / PGSIZE) with
  | none => exact ⟨rfl, by simp [leaf_of_none hslot]⟩
  | some loc => exact ⟨rfl, by simp [leaf_of_slot (page_lt hva) hslot]⟩

/-- A page that was free is free again. -/
theorem kfree_onlyFree (hc : c ∈ s.freelist) (h : OnlyFree s s') : wp (kfree K c) (fun _ t => OnlyFree s t) (fun _ => True) s' := by
  simp only [kfree, wp_ite, wp_throw, wp_bind, wp_memset, wp_modify]
  refine ⟨fun _ => trivial, fun _ => ⟨fun b hb => ?_, fun b hb => ?_⟩⟩
  · rcases List.mem_cons.mp hb with rfl | hb
    · exact hc
    · exact h.freelist hb
  · have hne : b ≠ c := fun he => hb (he ▸ hc)
    exact (Function.update_of_ne hne ..).trans (h.data b hb)

section Fault

variable {v w sz : ℕ} {res : Option ℕ}

/-- A page that was not there is mapped: a free page full of zeros, which has been paid for with its tables. -/
structure Faulted (r sz v c : ℕ) (s s' : Mem) : Prop where
  absent : leaf s.mem r v = none
  below : v * PGSIZE < sz
  fresh : c ∈ s.freelist
  leaf : leaf s'.mem r = Function.update (leaf s.mem r) v (some ⟨true, ⟨true, true, false, true⟩, c⟩)
  zero : ∀ o, s'.data c o = 0
  tables : Linked r (tablesTo {v}) s s'
  free : s'.freelist.length + need s.mem r {v} = s.freelist.length

theorem Faulted.leaf_ne (h : Faulted r sz v c s s') (hw : w ≠ v) : Vm.leaf s'.mem r w = Vm.leaf s.mem r w := by
  rw [h.leaf, Function.update_of_ne hw]

theorem need_singleton (mem : ℕ → Fin 512 → Pte) (r v : ℕ) : need mem r {v} = 1 + (absent mem r (tablesTo {v})).card := by
  rw [need, Finset.card_singleton]

/-- What a page fault at `va` does: it maps the page, or it fails, for want of memory if the page is to be had. -/
structure Fault (K : Kernel) (roots pend : Set ℕ) (r sz va : ℕ) (res : Option ℕ) (s s' : Mem) : Prop where
  pages : Pages K roots pend s'
  free : OnlyFree s s'
  but : SameBut roots r s s'
  page : (res = none ∧ Vm.leaf s'.mem r = Vm.leaf s.mem r ∧
      (Vm.leaf s.mem r (va / PGSIZE) = none → va < sz → s.freelist.length < need s.mem r {va / PGSIZE})) ∨
    ∃ c, res = some c ∧ Faulted r sz (va / PGSIZE) c s s'

theorem vmfault_fault (h : Pages K roots pend s) (hr : r ∈ roots) (hsz : sz ≤ TRAPFRAME) :
    wp (vmfault K r sz r va) (fun res s' => Fault K roots pend r sz va res s s') never s := by
  have hsame : ¬ (leaf s.mem r (va / PGSIZE) = none ∧ va < sz) → Fault K roots pend r sz va none s s := fun hno =>
    ⟨h, .refl _, .refl _ _, .inl ⟨rfl, rfl, fun hnone hlt => absurd ⟨hnone, hlt⟩ hno⟩⟩
  simp only [vmfault, wp_ite, wp_pure, wp_bind, pgRoundDown]
  refine ⟨fun hge => hsame fun hno => absurd hno.2 (Nat.not_lt.mpr hge), fun hge => ?_⟩
  have hlt := Nat.not_le.mp hge
  have hlow : va / PGSIZE * PGSIZE < sz := (Nat.div_mul_le_self _ _).trans_lt hlt
  have hu : va / PGSIZE < UPAGES := page_lt_upages (hlt.trans_le hsz)
  refine wp_imp (ismapped_exact r (va_lt (by omega))) fun res s1 hres => ?_
  obtain ⟨hs1, hmapped⟩ := hres
  subst s1
  rw [Nat.mul_div_cancel _ (by decide : 0 < PGSIZE)] at hmapped
  refine ⟨fun hmap => hsame fun hno => hmapped.mp hmap hno.1, fun hmap => ?_⟩
  have hnone := not_not.mp (mt hmapped.mpr hmap)
  refine wp_mono (wp_and (kalloc_spec h) kalloc_free) (fun res s1 hres => ?_) fun e he => he.1
  obtain ⟨⟨rfl, rfl⟩ | ⟨c, rfl, -, hcp, h1, hsame1⟩, hfree1, hnil, hcount⟩ := hres
  · refine ⟨h, .refl _, .refl _ _, .inl ⟨rfl, rfl, fun _ _ => ?_⟩⟩
    rw [hnil rfl, need_singleton, List.length_nil]
    omega
  obtain ⟨hcin, hlen, -⟩ := hcount c rfl
  simp only [wp_bind, wp_memset, wp_ite, wp_pure]
  obtain ⟨h2, hsame2⟩ := h1.scribble (b := c) (.inl (Set.mem_insert _ _)) (filled 0) fun _ => UInt8.ofNat 0
  have hfree2 := hfree1.memset hcin (filled 0) fun _ => UInt8.ofNat 0
  have htables := hsame1.trans hsame2
  have hl2 := htables.leaves
  generalize hm : Mem.mk s1.freelist (Function.update s1.mem c (filled 0)) (Function.update s1.data c fun _ => UInt8.ofNat 0) = s2 at *
  have hlen2 : s2.freelist.length + 1 = s.freelist.length := by rw [← hm]; exact hlen
  have habsent : absent s2.mem r (tablesTo {va / PGSIZE}) = absent s.mem r (tablesTo {va / PGSIZE}) := by
    refine Finset.filter_congr fun p hp => ?_
    rw [htables.follow hr ((length_of_tablesTo hp).trans (by decide))]
  refine wp_mono (wp_and (mappages_new h2 hcp hr hu.le rfl) (wp_and (mappages_onlyFree _ _ _) (mappages_paid c _ h2 hr hu)))
    (fun ok s3 h3 => ?_) fun e he => ?_
  · obtain ⟨⟨rfl, h3, hl3⟩ | ⟨rfl, -, h3⟩, hfree3, hfail, hpaid⟩ := h3
    · refine ⟨by simp, fun _ => ?_⟩
      refine wp_mono (wp_and (kfree_new h3 hcp) (kfree_onlyFree hcin (hfree2.trans hfree3))) (fun _ s4 h4 => ?_) fun e he => he.1
      obtain ⟨⟨h4, hl4⟩, hfree4⟩ := h4
      have hl := (hl2.trans hl3).trans hl4
      refine ⟨h4, hfree4, hl.but r, .inl ⟨rfl, hl.leaf r hr, fun _ _ => ?_⟩⟩
      have := hfail rfl
      rw [habsent] at this
      rw [need_singleton]
      omega
    · obtain ⟨h3, hleaf, hbut⟩ := h3 hu
      rw [hl2.leaf r hr] at hleaf
      refine ⟨fun _ => ⟨h3, hfree2.trans hfree3, (hl2.but r).trans hbut,
        .inr ⟨c, rfl, hnone, hlow, hcin, hleaf, fun o => ?_, fun p hp => ?_, ?_⟩⟩, fun hn => absurd rfl hn⟩
      · rw [hfree3.data c (by simpa using (h2.owned.pending (Set.mem_insert c pend)).2), ← hm]
        simp
      · rw [(hpaid rfl).tables p hp, htables.follow hr (by omega)]
      · have := (hpaid rfl).free
        rw [habsent] at this
        rw [need_singleton]
        omega
  · rw [hl2.leaf r hr] at he
    exact he.1.2 hnone

theorem Faulted.grown (h : Faulted r sz v c s s') (hbut : SameBut roots r s s') : Grown roots r (npages sz) s s' := by
  have hlt : v < npages sz := by
    have := h.below
    simp only [npages, PGSIZE] at this ⊢
    omega
  refine ⟨hbut.others, fun w hw => h.leaf_ne (by omega), fun w hw => h.leaf_ne ?_⟩
  rintro rfl
  exact hw h.absent

theorem Fault.grown (h : Fault K roots pend r sz va res s s') : Grown roots r (npages sz) s s' := by
  rcases h.page with ⟨-, hl, -⟩ | ⟨c, -, hf⟩
  · exact ⟨h.but.others, fun v _ => by rw [hl], fun v _ => by rw [hl]⟩
  · exact hf.grown h.but

end Fault

/-- Writing bytes changes no page table. -/
theorem Pages.poke (h : Pages K roots pend s) (data : ℕ → ℕ → UInt8) : Pages K roots pend { s with data := data } :=
  ⟨h.owned, h.nodup, h.free, h.shape⟩

theorem Grown.poke {n : ℕ} (h : Grown roots r n s s') (data : ℕ → ℕ → UInt8) :
    Grown roots r n s { s' with data := data } :=
  ⟨h.but, h.above, h.kept⟩

end Lazy

end Xv6.Vm
