import Xv6.Sanity.PageTables

/-! What `kalloc`, `kfree`, `walk`, `mappages` and `uvmunmap` do to pages and mappings. -/

namespace Xv6.Vm

open Wp Forest

variable {K : Kernel} {roots pend : Set ℕ} {s s' : Mem} {r b c va vpn : ℕ}

/-- No error. -/
def never : String → Prop := fun _ => False

@[simp] theorem wp_readPte {loc : ℕ × Fin 512} {Q : Pte → Mem → Prop} {E : String → Prop} :
    wp (readPte loc) Q E s ↔ Q (s.mem loc.1 loc.2) s := Iff.rfl

@[simp] theorem wp_setPte {loc : ℕ × Fin 512} {v : Pte} {Q : Unit → Mem → Prop} {E : String → Prop} :
    wp (setPte loc v) Q E s ↔ Q () { s with mem := Function.update s.mem loc.1 (Function.update (s.mem loc.1) loc.2 v) } := Iff.rfl

@[simp] theorem wp_memset {pa n : ℕ} {Q : Unit → Mem → Prop} {E : String → Prop} :
    wp (memset pa n) Q E s ↔ Q () { s with
      mem := Function.update s.mem pa (filled n)
      data := Function.update s.data pa fun _ => UInt8.ofNat n } := Iff.rfl

@[simp] theorem wp_memmove {pa off : ℕ} {bytes : List UInt8} {Q : Unit → Mem → Prop} {E : String → Prop} :
    wp (memmove pa off bytes) Q E s ↔
      Q () { s with data := Function.update s.data pa (splice (s.data pa) off bytes) } := Iff.rfl

@[simp] theorem wp_readBytes {pa off n : ℕ} {Q : List UInt8 → Mem → Prop} {E : String → Prop} :
    wp (readBytes pa off n) Q E s ↔ Q ((List.range n).map fun t => s.data pa (off + t)) s := Iff.rfl

/-- A page from `kalloc`, filled with something. -/
theorem kalloc_spec (h : Pages K roots pend s) :
    wp kalloc (fun res s' => (res = none ∧ s' = s) ∨ ∃ c, res = some c ∧ c ∈ area K ∧ c ∉ pend ∧
      Pages K roots (insert c pend) s' ∧ SameTables roots s s') never s := by
  simp only [kalloc, wp_bind, wp_get]
  cases hf : s.freelist with
  | nil => exact .inl ⟨rfl, rfl⟩
  | cons c rest =>
    obtain ⟨hp, hsame, harea, hpend⟩ := h.alloc hf (filled 5) fun _ => UInt8.ofNat 5
    simp only [wp_bind, wp_set, wp_memset, wp_pure]
    exact .inr ⟨c, rfl, harea, hpend, hp, hsame⟩

theorem kfree_spec (h : Pages K roots pend s) (hc : c ∈ pend) :
    wp (kfree K c) (fun _ s' => Pages K roots (pend \ {c}) s' ∧ SameTables roots s s' ∧
      s' = ⟨c :: s.freelist, Function.update s.mem c (filled 1), Function.update s.data c fun _ => 1⟩) never s := by
  obtain ⟨ha, hlo, hhi⟩ := (h.owned.pending hc).1
  have hok : ¬ (c % PGSIZE ≠ 0 ∨ c < K.kend ∨ PHYSTOP ≤ c) := by omega
  simp only [kfree, if_neg hok, wp_bind, wp_memset, wp_modify]
  obtain ⟨hp, hsame⟩ := h.release hc (filled 1) fun _ => 1
  exact ⟨hp, hsame, rfl⟩

section Walk

theorem special_lt (h : vpn < UPAGES + 2) : vpn < VPAGES := by
  have := upages_lt.1
  simp only [MAXVA, PGSIZE, VPAGES] at this ⊢
  omega

theorem va_lt (h : vpn < UPAGES + 2) : vpn * PGSIZE < MAXVA := by
  have := upages_lt.1
  simp only [MAXVA, PGSIZE] at this ⊢
  omega

theorem walkLevel_false (b : ℕ) (i : Fin 512) : wp (walkLevel b i false) (fun res s' => s' = s ∧ res = nextOf s.mem b i) never s := by
  simp only [walkLevel, wp_bind, wp_readPte]
  cases hv : (s.mem b i).v with
  | true => exact ⟨rfl, (nextOf_some.mpr ⟨hv, rfl⟩).symm⟩
  | false => exact ⟨rfl, (nextOf_none.mpr hv).symm⟩

/-- Looking an entry up. -/
theorem walk_false (r : ℕ) (hva : va < MAXVA) :
    wp (walk r va false) (fun res s' => s' = s ∧ res = slotAt s.mem r (va / PGSIZE)) never s := by
  simp only [walk, if_neg (Nat.not_le.mpr hva), wp_bind, px_eq]
  refine wp_imp (walkLevel_false r _) fun res s1 hres => ?_
  obtain ⟨hs1, rfl⟩ := hres
  subst s1
  cases h1 : nextOf s.mem r (vx 2 (va / PGSIZE)) with
  | none => exact ⟨rfl, by simp [slotAt, follow, h1]⟩
  | some t =>
    simp only [wp_bind]
    refine wp_imp (walkLevel_false t _) fun res s2 hres => ?_
    obtain ⟨hs2, rfl⟩ := hres
    subst s2
    cases h2 : nextOf s.mem t (vx 1 (va / PGSIZE)) with
    | none => exact ⟨rfl, by simp [slotAt, follow, h1, h2]⟩
    | some u => exact ⟨rfl, by simp [slotAt, follow, h1, h2]⟩

/-- One level down, with a new table if there was none. -/
theorem walkLevel_true {q : List (Fin 512)} {i : Fin 512} (h : Pages K roots pend s) (hr : r ∈ roots) (hq : q.length < 2)
    (hb : follow (nextOf s.mem) r q = some b) :
    wp (walkLevel b i true) (fun res s' => Pages K roots pend s' ∧ SameLeaves roots s s' ∧
      ∀ c, res = some c → follow (nextOf s'.mem) r (q ++ [i]) = some c) never s := by
  simp only [walkLevel, wp_bind, wp_readPte]
  cases hv : (s.mem b i).v with
  | true =>
    refine ⟨h, .refl _ _, fun c hc => ?_⟩
    cases hc
    rw [follow_entry hb, nextOf_some.mpr ⟨hv, rfl⟩]
    rfl
  | false =>
    simp only [Bool.not_true, Bool.false_eq_true, if_false, wp_bind]
    refine wp_imp (kalloc_spec h) fun res s1 hres => ?_
    rcases hres with ⟨rfl, rfl⟩ | ⟨c, rfl, -, hcp, h1, hsame⟩
    · exact ⟨h, .refl _ _, by simp⟩
    · simp only [wp_bind, wp_memset, wp_setPte, wp_pure]
      obtain ⟨h2, hsame2⟩ := h1.scribble (b := c) (.inl (Set.mem_insert _ _)) (filled 0) fun _ => UInt8.ofNat 0
      have htables := hsame.trans hsame2
      obtain ⟨hb2, hm2⟩ := htables.table r hr q b (by omega) hb
      have hz : ∀ j, ((Function.update s1.mem c (filled 0)) c j).v = false := fun j => by simp [filled, pteOf]
      obtain ⟨h3, hleaves, hlink⟩ := h2.link hr hq hb2 (by rw [hm2]; exact hv) (Set.mem_insert _ _) hz rfl
      rw [Set.insert_sdiff_self_of_notMem hcp] at h3
      exact ⟨h3, htables.leaves.trans hleaves, fun d hd => by cases hd; exact hlink⟩

/-- The entry for `va`, with the tables down to it. -/
theorem walk_true (h : Pages K roots pend s) (hr : r ∈ roots) (hva : va < MAXVA) :
    wp (walk r va true) (fun res s' => Pages K roots pend s' ∧ SameLeaves roots s s' ∧
      ∀ loc, res = some loc → slotAt s'.mem r (va / PGSIZE) = some loc) never s := by
  simp only [walk, if_neg (Nat.not_le.mpr hva), wp_bind, px_eq]
  refine wp_imp (walkLevel_true h hr (q := []) (by simp) rfl) fun res s1 hres => ?_
  obtain ⟨h1, hl1, hf1⟩ := hres
  cases res with
  | none => exact ⟨h1, hl1, by simp⟩
  | some t =>
    simp only [wp_bind]
    refine wp_imp (walkLevel_true h1 hr (q := [vx 2 (va / PGSIZE)]) (by simp) (hf1 t rfl)) fun res s2 hres => ?_
    obtain ⟨h2, hl2, hf2⟩ := hres
    cases res with
    | none => exact ⟨h2, hl1.trans hl2, by simp⟩
    | some u =>
      refine ⟨h2, hl1.trans hl2, fun loc hloc => ?_⟩
      cases hloc
      have hf := hf2 u rfl
      rw [List.singleton_append] at hf
      rw [slotAt, hf]
      rfl

end Walk

/-- The state after the entry at `loc` has been written. -/
def Mem.write (s : Mem) (loc : ℕ × Fin 512) (pte : Pte) : Mem :=
  { s with mem := Function.update s.mem loc.1 (Function.update (s.mem loc.1) loc.2 pte) }

/-- One page of `mappages`: it runs out of memory, or writes the entry of a page that was not mapped. -/
theorem mappages_page (pa : ℕ) (perm : Perm) (h : Pages K roots pend s) (hr : r ∈ roots) (hva : va < MAXVA)
    (hal : va % PGSIZE = 0) :
    wp (mappages r va PGSIZE pa perm) (fun ok s' => ∃ s1, Pages K roots pend s1 ∧ SameLeaves roots s s1 ∧
      ((ok = false ∧ s' = s1) ∨ (ok = true ∧ leaf s.mem r (va / PGSIZE) = none ∧
        ∃ loc, slotAt s1.mem r (va / PGSIZE) = some loc ∧ s' = s1.write loc ⟨true, perm, pa⟩)))
      (fun e => e = "mappages: remap" ∧ leaf s.mem r (va / PGSIZE) ≠ none) s := by
  have hvp : va / PGSIZE < VPAGES := by
    simp only [MAXVA, PGSIZE, VPAGES] at hva ⊢
    omega
  have hsize : PGSIZE / PGSIZE = 1 := by decide
  simp only [mappages, hal, ne_eq, not_true_eq_false, if_false, Nat.mod_self, show PGSIZE ≠ 0 by decide, hsize, mapFrom, wp_bind]
  refine wp_imp (walk_true h hr hva) fun res s1 hres => ?_
  obtain ⟨h1, hl1, hslot⟩ := hres
  cases res with
  | none => exact ⟨s1, h1, hl1, .inl ⟨rfl, rfl⟩⟩
  | some loc =>
    have hleaf := leaf_of_slot hvp (hslot loc rfl)
    simp only [wp_bind, wp_readPte]
    cases hv : (s1.mem loc.1 loc.2).v with
    | true =>
      rw [hv, if_pos rfl, hl1.leaf r hr] at hleaf
      exact ⟨rfl, by rw [hleaf]; simp⟩
    | false =>
      rw [hv, if_neg Bool.false_ne_true, hl1.leaf r hr] at hleaf
      simp only [Bool.false_eq_true, if_false, wp_bind, wp_setPte, wp_pure]
      exact ⟨s1, h1, hl1, .inr ⟨by trivial, hleaf, loc, hslot loc rfl, rfl⟩⟩

/-- The page tables other than `r` map what they have mapped, and it is what it was. -/
abbrev SameBut (roots : Set ℕ) (r : ℕ) (s s' : Mem) : Prop := SameLeaves (roots \ {r}) s s'

theorem SameBut.others (h : SameBut roots r s s') : ∀ r' ∈ roots, r' ≠ r → leaf s'.mem r' = leaf s.mem r' :=
  fun r' hr' hne => h.leaf r' ⟨hr', hne⟩

theorem SameLeaves.but (h : SameLeaves roots s s') (r : ℕ) : SameBut roots r s s' := h.mono Set.sdiff_subset

section Frame

/-- Only free pages are written, and none becomes free. -/
structure OnlyFree (s s' : Mem) : Prop where
  freelist : s'.freelist ⊆ s.freelist
  data : ∀ b ∉ s.freelist, s'.data b = s.data b

theorem OnlyFree.refl (s : Mem) : OnlyFree s s := ⟨fun _ => id, fun _ _ => rfl⟩

theorem OnlyFree.trans {s'' : Mem} (h : OnlyFree s s') (h' : OnlyFree s' s'') : OnlyFree s s'' where
  freelist := fun _ hb => h.freelist (h'.freelist hb)
  data := fun b hb => (h'.data b fun hin => hb (h.freelist hin)).trans (h.data b hb)

/-- User memory is not free. -/
theorem OnlyFree.same (h : OnlyFree s s') (hp : Pages K roots pend s) : SameData roots s s' :=
  fun _ hr _ hv _ he => h.data _ (hp.user hr hv he).2.1

theorem kalloc_free : wp kalloc (fun res s' => OnlyFree s s' ∧ (res = none → s.freelist = []) ∧ ∀ c, res = some c →
    c ∈ s.freelist ∧ s'.freelist.length + 1 = s.freelist.length ∧ (s.freelist.Nodup → c ∉ s'.freelist)) (fun _ => True) s := by
  simp only [kalloc, wp_bind, wp_get]
  cases hf : s.freelist with
  | nil => exact ⟨.refl s, fun _ => rfl, by simp⟩
  | cons c rest =>
    simp only [wp_bind, wp_set, wp_memset, wp_pure]
    refine ⟨⟨fun b hb => by rw [hf]; exact List.mem_cons_of_mem c hb, fun b hb => ?_⟩, by simp, ?_⟩
    · rw [hf] at hb
      exact Function.update_of_ne (List.ne_of_not_mem_cons hb) _ _
    · rintro _ ⟨⟩
      exact ⟨List.mem_cons_self, rfl, fun hnd => (List.nodup_cons.mp hnd).1⟩

/-- A page that was free is filled. -/
theorem OnlyFree.memset (h : OnlyFree s s') (hc : c ∈ s.freelist) (page : Fin 512 → Pte) (bytes : ℕ → UInt8) :
    OnlyFree s { s' with mem := Function.update s'.mem c page, data := Function.update s'.data c bytes } where
  freelist := h.freelist
  data := fun b hb => by
    have hne : b ≠ c := fun he => hb (he ▸ hc)
    exact (Function.update_of_ne hne _ _).trans (h.data b hb)

theorem walkLevel_onlyFree (b : ℕ) (i : Fin 512) (alloc : Bool) :
    wp (walkLevel b i alloc) (fun _ s' => OnlyFree s s') (fun _ => True) s := by
  simp only [walkLevel, wp_bind, wp_readPte, wp_ite, wp_pure]
  refine ⟨fun _ => .refl s, fun _ => ⟨fun _ => .refl s, fun _ => wp_mono kalloc_free (fun res s1 h1 => ?_) fun _ => id⟩⟩
  cases res with
  | none => exact h1.1
  | some c =>
    simp only [wp_bind, wp_memset, wp_setPte, wp_pure]
    obtain ⟨hfree, hdata⟩ := h1.1.memset (h1.2.2 c rfl).1 (filled 0) fun _ => UInt8.ofNat 0
    exact ⟨hfree, hdata⟩

theorem walk_onlyFree (alloc : Bool) :
    wp (walk r va alloc) (fun _ s' => OnlyFree s s') (fun _ => True) s := by
  simp only [walk, wp_ite, wp_throw, wp_bind]
  refine ⟨fun _ => trivial, fun _ => wp_mono (walkLevel_onlyFree _ _ alloc) (fun res s1 h1 => ?_) fun _ => id⟩
  cases res with
  | none => exact h1
  | some t =>
    simp only [wp_bind]
    refine wp_mono (walkLevel_onlyFree _ _ alloc) (fun res s2 h2 => ?_) fun _ => id
    cases res with
    | none => exact h1.trans h2
    | some u => exact h1.trans h2

theorem mapFrom_onlyFree (perm : Perm) (n pa : ℕ) :
    wp (mapFrom r perm n va pa) (fun _ s' => OnlyFree s s') (fun _ => True) s := by
  induction n generalizing va pa s with
  | zero => exact .refl s
  | succ n ih =>
    simp only [mapFrom, wp_bind]
    refine wp_mono (walk_onlyFree true) (fun res s1 h1 => ?_) fun _ => id
    cases res with
    | none => exact h1
    | some loc =>
      simp only [wp_bind, wp_readPte, wp_ite, wp_throw, wp_setPte]
      refine ⟨fun _ => trivial, fun _ => wp_mono (ih _) (fun _ s2 h2 => ?_) fun _ => id⟩
      exact h1.trans ⟨h2.freelist, h2.data⟩

theorem mappages_onlyFree (size pa : ℕ) (perm : Perm) :
    wp (mappages r va size pa perm) (fun _ s' => OnlyFree s s') (fun _ => True) s := by
  simp only [mappages, wp_ite, wp_throw]
  exact ⟨fun _ => trivial, fun _ => ⟨fun _ => trivial, fun _ => ⟨fun _ => trivial, fun _ => mapFrom_onlyFree perm _ pa⟩⟩⟩

end Frame

/-- Mapping a pending page into user memory. -/
theorem mappages_user {pa : ℕ} {perm : Perm} (h : Pages K roots pend s) (hr : r ∈ roots) (hvpn : vpn < UPAGES) (hpa : pa ∈ pend)
    (hperm : perm.leaf = true) :
    wp (mappages r (vpn * PGSIZE) PGSIZE pa perm) (fun ok s' =>
      (ok = false ∧ Pages K roots pend s' ∧ SameLeaves roots s s') ∨
      (ok = true ∧ leaf s.mem r vpn = none ∧ Pages K roots (pend \ {pa}) s' ∧
        leaf s'.mem r = Function.update (leaf s.mem r) vpn (some ⟨true, perm, pa⟩) ∧ SameBut roots r s s'))
      (fun e => e = "mappages: remap" ∧ leaf s.mem r vpn ≠ none) s := by
  have hdiv : vpn * PGSIZE / PGSIZE = vpn := Nat.mul_div_cancel _ (by decide)
  have hvp : vpn < VPAGES := hvpn.trans upages_lt.2
  have hpage := mappages_page pa perm h hr (va_lt (by omega)) (Nat.mul_mod_left vpn PGSIZE)
  rw [hdiv] at hpage
  refine wp_mono hpage (fun ok s' hres => ?_) fun e he => he
  obtain ⟨s1, h1, hl1, ⟨rfl, rfl⟩ | ⟨rfl, hnone, loc, hslot, hs'⟩⟩ := hres
  · exact .inl ⟨rfl, h1, hl1⟩
  · obtain ⟨hleaf, hothers⟩ := h1.leaf_write hr hvp hslot hs'
    have hmap := h1.map hr hvp hslot hs' hvpn (by rw [hl1.leaf r hr]; exact hnone) rfl hperm hpa
    refine .inr ⟨rfl, hnone, hmap, ?_, (hl1.but r).trans hothers⟩
    rw [hleaf, hl1.leaf r hr]
    rfl

/-- Mapping the trampoline or the trapframe. -/
theorem mappages_special {pa : ℕ} {perm : Perm} (h : Pages K roots pend s) (hr : r ∈ roots) (hlo : UPAGES ≤ vpn)
    (hhi : vpn < UPAGES + 2) (hva : vpn * PGSIZE = va) (hperm : perm.leaf = true) :
    wp (mappages r va PGSIZE pa perm) (fun ok s' =>
      (ok = false ∧ Pages K roots pend s' ∧ SameLeaves roots s s') ∨
      (ok = true ∧ leaf s.mem r vpn = none ∧ Pages K roots pend s' ∧ leaf s'.mem r = Function.update (leaf s.mem r) vpn (some ⟨true, perm, pa⟩) ∧ SameBut roots r s s'))
      (fun e => e = "mappages: remap" ∧ leaf s.mem r vpn ≠ none) s := by
  subst hva
  have hdiv : vpn * PGSIZE / PGSIZE = vpn := Nat.mul_div_cancel _ (by decide)
  have hvp : vpn < VPAGES := special_lt hhi
  have hpage := mappages_page pa perm h hr (va_lt (by omega)) (Nat.mul_mod_left vpn PGSIZE)
  rw [hdiv] at hpage
  refine wp_mono hpage (fun ok s' hres => ?_) fun e he => he
  obtain ⟨s1, h1, hl1, ⟨rfl, rfl⟩ | ⟨rfl, hnone, loc, hslot, hs'⟩⟩ := hres
  · exact .inl ⟨rfl, h1, hl1⟩
  · obtain ⟨hleaf, hothers⟩ := h1.leaf_write hr hvp hslot hs'
    refine .inr ⟨rfl, hnone, h1.special hr hvp hslot hs' hlo fun _ => hperm, ?_, (hl1.but r).trans hothers⟩
    rw [hleaf, hl1.leaf r hr]
    rfl

section Unmap

/-- A page that is not mapped is left alone. -/
theorem unmapPage_rule {free : Bool} {Q : Mem → Prop} {E : String → Prop} (hhi : vpn < UPAGES + 2) (hnone : leaf s.mem r vpn = none → Q s)
    (hsome : ∀ loc, slotAt s.mem r vpn = some loc → leaf s.mem r vpn = some (s.mem loc.1 loc.2) → wp (do
      if free then kfree K (s.mem loc.1 loc.2).pa
      setPte loc (pteOf 0)) (fun _ => Q) E s) : wp (unmapPage K r (vpn * PGSIZE) free) (fun _ => Q) E s := by
  simp only [unmapPage, wp_bind]
  refine wp_imp (walk_false r (va_lt hhi)) fun res s1 hres => ?_
  obtain ⟨hs1, rfl⟩ := hres
  subst s1
  rw [Nat.mul_div_cancel _ (by decide : 0 < PGSIZE)]
  cases hslot : slotAt s.mem r vpn with
  | none => exact hnone (leaf_of_none hslot)
  | some loc =>
    have hleaf := leaf_of_slot (special_lt hhi) hslot
    simp only [wp_bind, wp_readPte]
    split_ifs at hleaf with hv
    · rw [if_pos hv]
      exact hsome loc hslot hleaf
    · rw [if_neg hv]
      exact hnone hleaf

/-- Freeing the page that an entry maps and clearing the entry. -/
theorem unmapPage_user (h : Pages K roots pend s) (hr : r ∈ roots) (hvpn : vpn < UPAGES) :
    wp (unmapPage K r (vpn * PGSIZE) true) (fun _ s' => Pages K roots pend s' ∧
      leaf s'.mem r = Function.update (leaf s.mem r) vpn none ∧ SameBut roots r s s') never s := by
  have hvp : vpn < VPAGES := hvpn.trans upages_lt.2
  refine unmapPage_rule (by omega) (fun hn => ⟨h, by rw [← hn, Function.update_eq_self], .refl _ _⟩) fun loc hslot hleaf => ?_
  obtain ⟨⟨hal, hlo, hhi⟩, hfree, hpend⟩ := h.user hr hvpn hleaf
  have hok : ¬ ((s.mem loc.1 loc.2).pa % PGSIZE ≠ 0 ∨ (s.mem loc.1 loc.2).pa < K.kend ∨ PHYSTOP ≤ (s.mem loc.1 loc.2).pa) := by
    omega
  simp only [if_true, kfree, if_neg hok, wp_bind, wp_memset, wp_modify, wp_setPte]
  -- clearing the entry first leads to the same state, and there the page is pending
  have hne : loc.1 ≠ (s.mem loc.1 loc.2).pa := by
    obtain ⟨b, hb, hloc⟩ := slotAt_some hslot
    have hb' : follow (nextOf s.mem) r [vx 2 vpn, vx 1 vpn] = some loc.1 := by rw [hb, hloc]
    exact h.table_ne_user hr (by simp) hb' hr hvpn hleaf
  have h1 := h.unmap hr hvp hslot rfl hvpn hleaf (e := pteOf 0) rfl
  obtain ⟨hleaf1, hothers⟩ := h.leaf_write hr hvp hslot rfl (e := pteOf 0)
  obtain ⟨h2, hsame2⟩ := h1.release (Set.mem_insert _ _) (filled 1) fun _ => 1
  rw [Set.insert_sdiff_self_of_notMem hpend] at h2
  rw [Function.update_of_ne hne, Function.update_comm hne.symm]
  refine ⟨h2, ?_, hothers.trans (hsame2.leaves.but r)⟩
  rw [hsame2.leaves.leaf r hr, hleaf1]
  rfl

/-- Clearing the entry of the trampoline or the trapframe. -/
theorem unmapPage_special (h : Pages K roots pend s) (hr : r ∈ roots) (hlo : UPAGES ≤ vpn) (hhi : vpn < UPAGES + 2) :
    wp (unmapPage K r (vpn * PGSIZE) false) (fun _ s' => Pages K roots pend s' ∧
      leaf s'.mem r = Function.update (leaf s.mem r) vpn none ∧ SameBut roots r s s') never s := by
  refine unmapPage_rule hhi (fun hn => ⟨h, by rw [← hn, Function.update_eq_self], .refl _ _⟩) fun loc hslot _ => ?_
  obtain ⟨hleaf1, hothers⟩ := h.leaf_write hr (special_lt hhi) hslot rfl (e := pteOf 0)
  exact ⟨h.special hr (special_lt hhi) hslot rfl hlo (by simp [pteOf]), hleaf1, hothers⟩

/-- `f` without the pages from `lo` to `hi`. -/
def without (f : ℕ → Option Pte) (lo hi : ℕ) : ℕ → Option Pte := fun v => if lo ≤ v ∧ v < hi then none else f v

theorem without_empty (f : ℕ → Option Pte) (lo : ℕ) : without f lo lo = f := by
  funext v
  exact if_neg (by omega)

theorem without_succ (f : ℕ → Option Pte) {lo hi : ℕ} (h : lo ≤ hi) :
    Function.update (without f lo hi) hi none = without f lo (hi + 1) := by
  funext v
  by_cases hv : v = hi
  · subst hv
    simp [without, h]
  · rw [Function.update_of_ne hv]
    exact if_congr (by omega) rfl rfl

/-- `uvmunmap` of user memory frees what was mapped. -/
theorem uvmunmap_user {lo n : ℕ} (h : Pages K roots pend s) (hr : r ∈ roots) (hhi : lo + n ≤ UPAGES) :
    wp (uvmunmap K r (lo * PGSIZE) n true) (fun _ s' => Pages K roots pend s' ∧
      leaf s'.mem r = without (leaf s.mem r) lo (lo + n) ∧ SameBut roots r s s') never s := by
  simp only [uvmunmap, Nat.mul_mod_left, ne_eq, not_true_eq_false, if_false]
  refine wp_imp (wp_repeatFrom (fun k s' => Pages K roots pend s' ∧ leaf s'.mem r = without (leaf s.mem r) lo (lo + k) ∧
    SameBut roots r s s') ⟨h, by rw [Nat.add_zero, without_empty], .refl _ _⟩ fun k t _ hk hI => ?_) fun _ t ht => by
      rwa [Nat.zero_add] at ht
  obtain ⟨ht, hleaf, hothers⟩ := hI
  rw [← Nat.add_mul]
  refine wp_imp (unmapPage_user ht hr (by omega)) fun _ u hu => ?_
  obtain ⟨hu, hleaf', hothers'⟩ := hu
  refine ⟨hu, ?_, hothers.trans hothers'⟩
  rw [hleaf', hleaf, without_succ _ (by omega), Nat.add_assoc]

theorem uvmunmap_special (h : Pages K roots pend s) (hr : r ∈ roots) (hlo : UPAGES ≤ vpn) (hhi : vpn < UPAGES + 2)
    (hva : vpn * PGSIZE = va) : wp (uvmunmap K r va 1 false) (fun _ s' => Pages K roots pend s' ∧
      leaf s'.mem r = Function.update (leaf s.mem r) vpn none ∧ SameBut roots r s s') never s := by
  subst hva
  simp only [uvmunmap, Nat.mul_mod_left, ne_eq, not_true_eq_false, if_false, repeatFrom, wp_bind, wp_pure, Nat.zero_mul,
    Nat.add_zero]
  exact unmapPage_special h hr hlo hhi

end Unmap

end Xv6.Vm
