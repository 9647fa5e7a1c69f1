import Xv6.Sanity.UserMemory
import Xv6.Spec.VmProc

/-! New page tables: an empty one, a copy of another one for `kfork`, and the one that `kexec` builds. -/

namespace Xv6.Vm

open Wp Forest

variable {K : Kernel} {roots pend : Set ℕ} {s s' : Mem} {r c va vpn : ℕ}

/-- An empty page becomes a page table. -/
theorem Pages.root (h : Pages K roots pend s) (hc : c ∈ pend) (hz : ∀ j, (s.mem c j).v = false) :
    Pages K (insert c roots) (pend \ {c}) s ∧ c ∉ roots ∧ ∀ vpn, leaf s.mem c vpn = none := by
  have hnone : ∀ q : List (Fin 512), q ≠ [] → follow (nextOf s.mem) c q = none := by
    intro q hq
    obtain ⟨i, q, rfl⟩ := List.exists_cons_of_ne_nil hq
    simp only [follow, nextOf_none.mpr (hz i), Option.bind_none]
  refine ⟨⟨?_, h.nodup, h.free, ?_⟩, fun hin => ?_, fun vpn => leaf_eq_none (hnone _ (by simp [vpath]))⟩
  · exact owned_root counts_closed h.owned (.inl (by simp)) hc fun i => nextOf_none.mpr (hz i)
  · rintro r' (rfl | hr') q b i hq hb hv
    · by_cases hq0 : q = []
      · subst hq0
        cases hb
        rw [hz i] at hv
        cases hv
      · rw [hnone q hq0] at hb
        cases hb
    · exact h.shape r' hr' q b i hq hb hv
  · exact (h.table hin (q := []) (by simp) rfl).2.2 hc

/-- What a new page table maps: the trampoline and the trapframe. -/
def kernelLeaves (K : Kernel) (trapframe : ℕ) : ℕ → Option Pte :=
  Function.update (Function.update (fun _ => none) (UPAGES + 1) (some ⟨true, ⟨true, false, true, false⟩, K.trampoline⟩))
    UPAGES (some ⟨true, ⟨true, true, false, false⟩, trapframe⟩)

theorem kernelLeaves_fits (K : Kernel) (trapframe n : ℕ) : Fits (kernelLeaves K trapframe) n := by
  intro v _ h0 h1
  rw [kernelLeaves, Function.update_of_ne h0, Function.update_of_ne h1]

theorem kernelLeaves_user (K : Kernel) (trapframe : ℕ) {v : ℕ} (hv : v < UPAGES) : kernelLeaves K trapframe v = none :=
  kernelLeaves_fits K trapframe 0 v (Nat.zero_le _) (by omega) (by omega)

theorem SameBut.leaves (h : SameBut (insert r roots) r s s') (hr : r ∉ roots) : SameLeaves roots s s' :=
  h.mono fun _ hr' => ⟨.inr hr', fun he => hr (he ▸ hr')⟩

/-- Giving up a page table that has only just been made. -/
theorem uvmfree_new (h : Pages K (insert r roots) pend s) (hr : r ∉ roots) (hnone : ∀ v, leaf s.mem r v = none) :
    wp (uvmfree K r 0) (fun _ s' => Pages K roots pend s' ∧ SameLeaves roots s s') never s := by
  have hroots : insert r roots \ {r} = roots := Set.insert_sdiff_self_of_notMem hr
  have hfree := uvmfree_spec h (Set.mem_insert r roots) (Nat.zero_le _) fun v _ => hnone v
  rwa [hroots] at hfree

theorem procPagetable_spec (trapframe : ℕ) (h : Pages K roots pend s) :
    wp (procPagetable K trapframe) (fun res s' => SameLeaves roots s s' ∧ ((res = none ∧ Pages K roots pend s') ∨
      ∃ r, res = some r ∧ r ∉ roots ∧ Pages K (insert r roots) pend s' ∧ leaf s'.mem r = kernelLeaves K trapframe))
      never s := by
  simp only [procPagetable, uvmcreate, wp_bind]
  refine wp_imp (kalloc_spec h) fun res s1 hres => ?_
  rcases hres with ⟨rfl, rfl⟩ | ⟨r, rfl, -, hrp, h1, hsame1⟩
  · exact ⟨.refl _ _, .inl ⟨rfl, h⟩⟩
  · simp only [wp_bind, wp_memset, wp_pure]
    obtain ⟨h2, hsame2⟩ := h1.scribble (b := r) (.inl (Set.mem_insert _ _)) (filled 0) fun _ => UInt8.ofNat 0
    have hl2 := (hsame1.trans hsame2).leaves
    obtain ⟨h3, hr, hnone⟩ := h2.root (Set.mem_insert _ _) fun j => by simp [filled, pteOf]
    rw [Set.insert_sdiff_self_of_notMem hrp] at h3
    refine wp_mono (mappages_special h3 (Set.mem_insert r roots) (Nat.le_succ UPAGES) (by omega) trampoline_eq rfl)
      (fun ok s4 h4 => ?_) fun e he => he.2 (hnone _)
    rcases h4 with ⟨rfl, h4, hl4⟩ | ⟨rfl, -, h4, hleaf4, hbut4⟩
    · simp only [Bool.false_eq_true, if_false, wp_bind, wp_pure]
      refine wp_imp (uvmfree_new h4 hr fun v => by rw [hl4.leaf r (Set.mem_insert r roots)]; exact hnone v) fun _ s5 h5 => ?_
      exact ⟨(hl2.trans ((hl4.but r).leaves hr)).trans h5.2, .inl ⟨trivial, h5.1⟩⟩
    · simp only [if_true, wp_bind]
      have hl4 := hl2.trans (hbut4.leaves hr)
      have hfun : leaf _ r = fun _ => none := funext hnone
      rw [hfun] at hleaf4
      refine wp_mono (mappages_special h4 (Set.mem_insert r roots) le_rfl (by omega) trapframe_eq.1 rfl)
        (fun ok s5 h5 => ?_) fun e he => he.2 (by rw [hleaf4, Function.update_of_ne (by omega)])
      rcases h5 with ⟨rfl, h5, hl5⟩ | ⟨rfl, -, h5, hleaf5, hbut5⟩
      · simp only [Bool.false_eq_true, if_false, wp_bind, wp_pure]
        refine wp_imp (uvmunmap_special h5 (Set.mem_insert r roots) (Nat.le_succ UPAGES) (by omega) trampoline_eq) fun _ s6 h6 => ?_
        obtain ⟨h6, hleaf6, hbut6⟩ := h6
        refine wp_imp (uvmfree_new h6 hr fun v => ?_) fun _ s7 h7 => ?_
        · rw [hleaf6, hl5.leaf r (Set.mem_insert r roots), hleaf4, Function.update_idem]
          by_cases hv : v = UPAGES + 1
          · rw [hv, Function.update_self]
          · rw [Function.update_of_ne hv]
        · exact ⟨((hl4.trans ((hl5.but r).leaves hr)).trans (hbut6.leaves hr)).trans h7.2, .inl ⟨trivial, h7.1⟩⟩
      · simp only [if_true, wp_pure]
        refine ⟨hl4.trans (hbut5.leaves hr), .inr ⟨r, rfl, hr, h5, ?_⟩⟩
        rw [hleaf5, hleaf4]
        rfl

section Copy

variable {old new : ℕ}

/-- The way out when memory runs out: what was copied is freed again. -/
theorem copyFrom_undo {v : ℕ} {t : Mem} (hn : new ∈ roots) (hv : v ≤ UPAGES) (hnone : ∀ w < UPAGES, leaf s.mem new w = none)
    (h : Pages K roots pend t) (hbut : SameBut roots new s t) (habove : ∀ w, v ≤ w → leaf t.mem new w = leaf s.mem new w) :
    wp (uvmunmap K new 0 v true) (fun _ s' => Pages K roots pend s' ∧ SameBut roots new s s' ∧
      leaf s'.mem new = leaf s.mem new) never t := by
  have hle : 0 + v ≤ UPAGES := by omega
  have hun := uvmunmap_user h hn hle
  rw [Nat.zero_mul] at hun
  refine wp_imp hun fun _ t' ht' => ?_
  obtain ⟨h', hleaf, hbut'⟩ := ht'
  refine ⟨h', hbut.trans hbut', ?_⟩
  funext w
  rw [hleaf, without]
  split_ifs with hw
  · exact (hnone w (by omega)).symm
  · exact habove w (by omega)

/-- The first `v` pages of `new` are copies of those of `old`. -/
structure Copied (s t : Mem) (old new v : ℕ) : Prop where
  unmapped : ∀ w < v, leaf s.mem old w = none → leaf t.mem new w = none
  mapped : ∀ w < v, ∀ e, leaf s.mem old w = some e → ∃ c, leaf t.mem new w = some ⟨true, e.perm, c⟩ ∧
    ∀ o < PGSIZE, t.data c o = s.data e.pa o

theorem Copied.skip {v : ℕ} {t : Mem} (h : Copied s t old new v) (ho : leaf s.mem old v = none)
    (hn : leaf t.mem new v = none) : Copied s t old new (v + 1) := by
  refine ⟨fun w hw hnone => ?_, fun w hw e he => ?_⟩
  · rcases Nat.lt_succ_iff_lt_or_eq.mp hw with hlt | rfl
    · exact h.unmapped w hlt hnone
    · exact hn
  · rcases Nat.lt_succ_iff_lt_or_eq.mp hw with hlt | rfl
    · exact h.mapped w hlt e he
    · rw [ho] at he
      cases he

/-- Another page is copied, and the copies made so far are left alone. -/
theorem Copied.add {v : ℕ} {t u : Mem} {e : Pte} (h : Copied s t old new v) (hn : new ∈ roots) (hv : v ≤ UPAGES)
    (ho : leaf s.mem old v = some e) (hleaf : leaf u.mem new = Function.update (leaf t.mem new) v (some ⟨true, e.perm, c⟩))
    (hdata : SameData roots t u) (hc : ∀ o < PGSIZE, u.data c o = s.data e.pa o) : Copied s u old new (v + 1) := by
  refine ⟨fun w hw hnone => ?_, fun w hw e' he' => ?_⟩
  · rcases Nat.lt_succ_iff_lt_or_eq.mp hw with hlt | rfl
    · rw [hleaf, Function.update_of_ne hlt.ne]
      exact h.unmapped w hlt hnone
    · rw [ho] at hnone
      cases hnone
  · rcases Nat.lt_succ_iff_lt_or_eq.mp hw with hlt | rfl
    · obtain ⟨c', hc', hbytes⟩ := h.mapped w hlt e' he'
      refine ⟨c', by rw [hleaf, Function.update_of_ne hlt.ne, hc'], fun o hlo => ?_⟩
      rw [hdata new hn w (hlt.trans_le hv) _ hc', hbytes o hlo]
    · obtain rfl : e = e' := Option.some.inj (ho.symm.trans he')
      exact ⟨c, by rw [hleaf, Function.update_self], hc⟩

theorem splice_of_lt {page : ℕ → UInt8} {off o : ℕ} {bytes : List UInt8} (h : o < bytes.length) :
    splice page off bytes (off + o) = bytes[o] := by
  rw [splice, if_neg (by omega), Nat.add_sub_cancel_left, List.getElem?_eq_getElem h]
  rfl

/-- A page filled with the bytes of another one. -/
theorem splice_page (page page' : ℕ → UInt8) {o : ℕ} (ho : o < PGSIZE) :
    splice page 0 ((List.range PGSIZE).map fun t => page' (0 + t)) o = page' o := by
  have hlen : o < ((List.range PGSIZE).map fun t => page' (0 + t)).length := by simpa using ho
  have hsplice : splice page 0 _ (0 + o) = _ := splice_of_lt hlen
  rw [Nat.zero_add] at hsplice
  rw [hsplice, List.getElem_map, List.getElem_range, Nat.zero_add]

/-- Bytes are written to a pending page. -/
theorem Pages.fill (h : Pages K roots pend s) (hc : c ∈ pend) (page : ℕ → UInt8) :
    Pages K roots pend { s with data := Function.update s.data c page } ∧
      SameLeaves roots s { s with data := Function.update s.data c page } := by
  obtain ⟨h', hsame⟩ := h.scribble (.inl hc) (s.mem c) page
  rw [Function.update_eq_self] at h' hsame
  exact ⟨h', hsame.leaves⟩

theorem copyFrom_spec (ho : old ∈ roots) (hn : new ∈ roots) (hne : old ≠ new) (hnone : ∀ w < UPAGES, leaf s.mem new w = none)
    (n v : ℕ) {t : Mem} (hv : v + n ≤ UPAGES) (h : Pages K roots pend t) (hbut : SameBut roots new s t)
    (habove : ∀ w, v ≤ w → leaf t.mem new w = leaf s.mem new w) (hcopy : Copied s t old new v) :
    wp (copyFrom K old new n (v * PGSIZE)) (fun ok s' => Pages K roots pend s' ∧ SameBut roots new s s' ∧
      (∀ w, v + n ≤ w → leaf s'.mem new w = leaf s.mem new w) ∧ (ok = false → leaf s'.mem new = leaf s.mem new) ∧
      (ok = true → Copied s s' old new (v + n))) never t := by
  induction n generalizing v t with
  | zero => exact ⟨h, hbut, habove, nofun, fun _ => hcopy⟩
  | succ n ih =>
    have hnext : v * PGSIZE + PGSIZE = (v + 1) * PGSIZE := by rw [Nat.add_mul, Nat.one_mul]
    -- the next page, when `new` maps nothing above the one before
    have hgo : ∀ u, Pages K roots pend u → SameBut roots new s u → (∀ w, v + 1 ≤ w → leaf u.mem new w = leaf s.mem new w) →
        Copied s u old new (v + 1) →
        wp (copyFrom K old new n (v * PGSIZE + PGSIZE)) (fun ok s' => Pages K roots pend s' ∧ SameBut roots new s s' ∧
          (∀ w, v + (n + 1) ≤ w → leaf s'.mem new w = leaf s.mem new w) ∧ (ok = false → leaf s'.mem new = leaf s.mem new) ∧
          (ok = true → Copied s s' old new (v + (n + 1)))) never u := by
      intro u hu hbu hau hcu
      rw [hnext]
      have hnn : v + (n + 1) = v + 1 + n := by omega
      rw [hnn]
      exact ih (v + 1) (by omega) hu hbu hau hcu
    have hfail : ∀ u, Pages K roots pend u → SameBut roots new s u → (∀ w, v ≤ w → leaf u.mem new w = leaf s.mem new w) →
        wp (uvmunmap K new 0 v true) (fun _ s' => Pages K roots pend s' ∧ SameBut roots new s s' ∧
          (∀ w, v + (n + 1) ≤ w → leaf s'.mem new w = leaf s.mem new w) ∧ (True → leaf s'.mem new = leaf s.mem new) ∧
          (false = true → Copied s s' old new (v + (n + 1)))) never u := by
      intro u hu hbu hau
      refine wp_imp (copyFrom_undo hn (by omega) hnone hu hbu hau) fun _ s' hs' => ?_
      exact ⟨hs'.1, hs'.2.1, fun w _ => by rw [hs'.2.2], fun _ => hs'.2.2, nofun⟩
    have hold : leaf t.mem old = leaf s.mem old := hbut.leaf old ⟨ho, hne⟩
    have hskip (hun : leaf t.mem old v = none) := hgo t h hbut (fun w hw => habove w (by omega)) (hcopy.skip (by rw [← hold, hun]) (by
      rw [habove v le_rfl]
      exact hnone v (by omega)))
    simp only [copyFrom, wp_bind]
    refine wp_imp (walk_false old (va_lt (by omega))) fun res t1 hres => ?_
    obtain ⟨ht1, rfl⟩ := hres
    subst t1
    rw [Nat.mul_div_cancel _ (by decide : 0 < PGSIZE)]
    cases hslot : slotAt t.mem old v with
    | none => exact hskip (leaf_of_none hslot)
    | some loc =>
      have hleaf := leaf_of_slot (special_lt (by omega : v < UPAGES + 2)) hslot
      simp only [wp_bind, wp_readPte]
      cases hval : (t.mem loc.1 loc.2).v with
      | false =>
        rw [hval, if_neg Bool.false_ne_true] at hleaf
        exact hskip hleaf
      | true =>
        rw [hval, if_pos rfl] at hleaf
        have hperm := (h.leaf_perm ho hleaf).2
        simp only [Bool.not_true, Bool.false_eq_true, if_false, wp_bind]
        refine wp_imp (kalloc_spec h) fun res t1 hres => ?_
        rcases hres with ⟨rfl, rfl⟩ | ⟨c, rfl, -, hcp, h1, hsame1⟩
        · simp only [wp_bind, wp_pure]
          exact hfail _ h hbut habove
        · simp only [wp_bind, wp_readBytes, wp_memmove]
          have hbytes : ∀ o < PGSIZE, splice (t1.data c) 0
              ((List.range PGSIZE).map fun k => t1.data (t.mem loc.1 loc.2).pa (0 + k)) o = s.data (t.mem loc.1 loc.2).pa o := by
            intro o hlo
            rw [splice_page _ _ hlo, hsame1.data old ho v (by omega) _ hleaf,
              hbut.data old ⟨ho, hne⟩ v (by omega) _ (by rw [← hold]; exact hleaf)]
          obtain ⟨h2, hfill⟩ := h1.fill (Set.mem_insert c pend)
            (splice (t1.data c) 0 ((List.range PGSIZE).map fun k => t1.data (t.mem loc.1 loc.2).pa (0 + k)))
          have hl2 := hsame1.leaves.trans hfill
          have habove2 : ∀ w, v ≤ w → leaf t1.mem new w = leaf s.mem new w := fun w hw => by
            rw [hsame1.leaves.leaf new hn]
            exact habove w hw
          refine wp_mono (wp_and (mappages_new h2 hcp hn (by omega) hperm) (mappages_onlyFree _ _ _))
            (fun ok t3 h3 => ?_) fun e he => ?_
          · rcases h3 with ⟨⟨rfl, h3, hl3⟩ | ⟨rfl, -, h3⟩, hfree⟩
            · simp only [Bool.false_eq_true, if_false, wp_bind, wp_pure]
              refine wp_imp (kfree_new h3 hcp) fun _ t4 h4 => ?_
              have hl4 := (hl2.trans hl3).trans h4.2
              simp only [Bool.false_eq_true] at hfail
              refine hfail t4 h4.1 (hbut.trans (hl4.but new)) fun w hw => ?_
              rw [hl4.leaf new hn]
              exact habove w hw
            · obtain ⟨h3, hleaf3, hbut3⟩ := h3 (by omega)
              simp only [if_true]
              refine hgo t3 h3 ((hbut.trans (hl2.but new)).trans hbut3) (fun w hw => ?_) ?_
              · rw [hleaf3, Function.update_of_ne (by omega)]
                exact habove2 w (by omega)
              · rw [hl2.leaf new hn] at hleaf3
                refine hcopy.add hn (by omega) (by rw [← hold, hleaf]) hleaf3 (hl2.data_trans (hfree.same h2)) fun o hlo => ?_
                rw [hfree.data c (by simpa using (h2.owned.pending (Set.mem_insert c pend)).2)]
                simpa using hbytes o hlo
          · rw [habove2 v le_rfl] at he
            exact he.1.2 (hnone v (by omega))

theorem uvmcopy_spec {sz : ℕ} (h : Pages K roots pend s) (ho : old ∈ roots) (hn : new ∈ roots) (hne : old ≠ new)
    (hsz : sz ≤ TRAPFRAME) (hnone : ∀ w < UPAGES, leaf s.mem new w = none) :
    wp (uvmcopy K old new sz) (fun ok s' => Pages K roots pend s' ∧ SameBut roots new s s' ∧
      (∀ w, npages sz ≤ w → leaf s'.mem new w = leaf s.mem new w) ∧ (ok = false → leaf s'.mem new = leaf s.mem new) ∧
      (ok = true → Copied s s' old new (npages sz))) never s := by
  have hcopy := copyFrom_spec (K := K) ho hn hne hnone (npages sz) 0 (by have := npages_le hsz; omega) h (.refl _ _)
    (fun _ _ => rfl) ⟨fun _ hw => absurd hw (Nat.not_lt_zero _), fun _ hw => absurd hw (Nat.not_lt_zero _)⟩
  unfold uvmcopy
  simpa only [Nat.zero_mul, Nat.zero_add, npages] using hcopy

end Copy

section Count

/-- A page of user memory is mapped at one place. -/
theorem Pages.page_inj {r' v w : ℕ} {e d : Pte} (h : Pages K roots pend s) (hr : r ∈ roots) (hv : v < UPAGES)
    (he : leaf s.mem r v = some e) (hr' : r' ∈ roots) (hw : w < UPAGES) (hd : leaf s.mem r' w = some d) (heq : e.pa = d.pa) :
    r = r' ∧ v = w := by
  have hplace : ∀ {q x a}, q ∈ roots → x < UPAGES → leaf s.mem q x = some a →
      val (nextOf s.mem) roots counts (q, vpath x) = some a.pa := fun {q x a} hq hx ha =>
    val_some.mpr ⟨⟨hq, .inr ⟨x, hx, rfl⟩⟩, by rw [follow_vpath _ _ (hx.trans upages_lt.2), ha]; rfl⟩
  obtain ⟨hroot, hpath⟩ := Prod.mk.inj (h.owned.inj (heq ▸ hplace hr hv he) (hplace hr' hw hd))
  exact ⟨hroot, vpath_inj (hv.trans upages_lt.2) (hw.trans upages_lt.2) hpath⟩

/-- Every page of user memory is a physical page of its own. -/
theorem Pages.mapped_le {n : ℕ} (h : Pages K roots pend s) (hr : r ∈ roots) (hn : n ≤ UPAGES)
    (hall : ∀ v < n, leaf s.mem r v ≠ none) : n ≤ PHYSTOP / PGSIZE := by
  have hpa : ∀ v < n, ∃ pte, leaf s.mem r v = some pte := fun v hv => Option.ne_none_iff_exists'.mp (hall v hv)
  have : Nonempty Pte := ⟨pteOf 0⟩
  choose! f hf using hpa
  have hinj : Set.InjOn (fun v => (f v).pa / PGSIZE) (Finset.range n) := by
    intro v hv w hw he
    have hv := Finset.mem_range.mp hv
    have hw := Finset.mem_range.mp hw
    obtain ⟨⟨hav, -⟩, -⟩ := h.user hr (hv.trans_le hn) (hf v hv)
    obtain ⟨⟨haw, -⟩, -⟩ := h.user hr (hw.trans_le hn) (hf w hw)
    have heq : (f v).pa = (f w).pa := by
      have := Nat.div_add_mod (f v).pa PGSIZE
      have := Nat.div_add_mod (f w).pa PGSIZE
      simp only at he
      rw [he] at *
      omega
    exact (h.page_inj hr (hv.trans_le hn) (hf v hv) hr (hw.trans_le hn) (hf w hw) heq).2
  have hmaps : Set.MapsTo (fun v => (f v).pa / PGSIZE) (Finset.range n) (Finset.range (PHYSTOP / PGSIZE)) := by
    intro v hv
    have hv := Finset.mem_range.mp hv
    obtain ⟨⟨-, -, hlt⟩, -⟩ := h.user hr (hv.trans_le hn) (hf v hv)
    simp only [Finset.coe_range, Set.mem_Iio]
    exact Nat.div_lt_div_of_lt_of_dvd (by decide) hlt
  have hcard := Finset.card_le_card_of_injOn _ hmaps hinj
  rwa [Finset.card_range, Finset.card_range] at hcard

/-- There are fewer physical pages than virtual ones: no page table maps all of user memory. -/
theorem Pages.exists_unmapped (h : Pages K roots pend s) (hr : r ∈ roots) : ∃ v < UPAGES, leaf s.mem r v = none := by
  by_contra hall
  push Not at hall
  exact absurd (h.mapped_le hr le_rfl hall) (Nat.not_le.mpr physical_lt)

end Count

section Exec

variable {trapframe : ℕ}

/-- A page table as `kexec` builds it: all memory below the size is mapped, for the user. -/
structure Built (K : Kernel) (trapframe : ℕ) (f : ℕ → Option Pte) (sz : ℕ) : Prop where
  le : sz ≤ TRAPFRAME
  mapped : ∀ v < npages sz, ∃ pte, f v = some pte ∧ pte.perm.u = true
  above : ∀ v, npages sz ≤ v → f v = kernelLeaves K trapframe v

theorem Built.overrun {newsz sz : ℕ} {e : String} (hb : Built K trapframe (leaf s.mem r) sz) (hr : r ∈ roots)
    (he : Overrun K roots r (npages sz) newsz s e) : False := by
  obtain ⟨-, -, pend, t, perm, ht, hfill⟩ := he
  obtain ⟨v, hv, hnone⟩ := ht.exists_unmapped hr
  by_cases hlt : v < npages sz
  · obtain ⟨pte, hpte, -⟩ := hb.mapped v hlt
    rw [hfill.outside v (by omega), hpte] at hnone
    cases hnone
  · obtain ⟨pa, hpa⟩ := hfill.inside v (by omega) hv
    rw [hpa] at hnone
    cases hnone

theorem Built.grow {f g : ℕ → Option Pte} {sz newsz : ℕ} {perm : Perm} (hb : Built K trapframe f sz) (hle : sz ≤ newsz)
    (htop : newsz ≤ TRAPFRAME) (hu : perm.u = true) (hfill : Filled f g (npages sz) (npages newsz) perm) :
    Built K trapframe g newsz := by
  refine ⟨htop, fun v hv => ?_, fun v hv => ?_⟩
  · by_cases hlow : v < npages sz
    · rw [hfill.outside v (by omega)]
      exact hb.mapped v hlow
    · obtain ⟨pa, hpa⟩ := hfill.inside v (by omega) hv
      exact ⟨_, hpa, hu⟩
  · have hmono := npages_mono hle
    rw [hfill.outside v (by omega)]
    exact hb.above v (by omega)

/-- Bytes have been written to the user memory of `r`. -/
structure Poked (roots : Set ℕ) (r : ℕ) (s s' : Mem) : Prop where
  freelist : s'.freelist = s.freelist
  mem : s'.mem = s.mem
  data : SameData (roots \ {r}) s s'

theorem Poked.refl (roots : Set ℕ) (r : ℕ) (s : Mem) : Poked roots r s s := ⟨rfl, rfl, .refl _ _⟩

theorem Poked.but (h : Poked roots r s s') : SameBut roots r s s' := ⟨fun _ _ => by rw [h.mem], h.data⟩

theorem Poked.trans {s'' : Mem} (h : Poked roots r s s') (h' : Poked roots r s' s'') : Poked roots r s s'' :=
  ⟨h'.freelist.trans h.freelist, h'.mem.trans h.mem, (h.but.trans h'.but).data⟩

theorem Poked.pages (hk : Poked roots r s s') (h : Pages K roots pend s) : Pages K roots pend s' := by
  obtain ⟨freelist, mem, data⟩ := s'
  obtain ⟨rfl, rfl, -⟩ := hk
  exact h.poke data

/-- The pages of a page table are not those of another one. -/
theorem Pages.poked {e : Pte} (h : Pages K roots pend s) (hr : r ∈ roots) (hv : vpn < UPAGES)
    (he : leaf s.mem r vpn = some e) (page : ℕ → UInt8) :
    Poked roots r s { s with data := Function.update s.data e.pa page } := by
  refine ⟨rfl, rfl, fun r' hr' w hw e' he' => Function.update_of_ne (fun heq => hr'.2 ?_) _ _⟩
  exact (h.page_inj hr'.1 hw he' hr hv he heq).1

theorem loadFrom_spec {va good sz : ℕ} {bytes : ℕ → UInt8} (h : Pages K roots pend s) (hr : r ∈ roots) (n i : ℕ)
    (hmap : ∀ j, i ≤ j → j < i + n → va + j * PGSIZE < TRAPFRAME ∧
      ∃ pte, leaf s.mem r ((va + j * PGSIZE) / PGSIZE) = some pte ∧ pte.perm.u = true) :
    wp (loadFrom r va bytes good sz n i) (fun _ s' => Poked roots r s s') never s := by
  induction n generalizing i s with
  | zero => exact .refl _ _ _
  | succ n ih =>
    obtain ⟨hva, pte, hl, hu⟩ := hmap i le_rfl (by omega)
    simp only [loadFrom, wp_bind]
    refine wp_imp (walkaddr_mapped (hva.trans_le trapframe_eq.2) hl hu) fun res s1 hres => ?_
    obtain ⟨hs1, rfl⟩ := hres
    subst s1
    simp only [wp_ite, wp_pure, wp_bind, wp_memmove]
    refine ⟨fun _ => .refl _ _ _, fun _ => ?_⟩
    have hk := h.poked hr (page_lt_upages hva) hl
      (splice (s.data pte.pa) 0 ((List.range (min (sz - i * PGSIZE) PGSIZE)).map fun t => bytes (i * PGSIZE + t)))
    exact wp_imp (ih (hk.pages h) (i + 1) fun j h1 h2 => hmap j (by omega) (by omega)) fun _ s2 h2 => hk.trans h2

theorem toNat_add_of_not_lt {x y : BitVec 64} (h : ¬ x + y < x) : (x + y).toNat = x.toNat + y.toNat := by
  rw [BitVec.lt_def, BitVec.toNat_add] at h
  rw [BitVec.toNat_add]
  have hx := x.isLt
  have hy := y.isLt
  omega

/-- The stack pointer after `n` bytes have been pushed. -/
theorem pushSp_spec {sp n : ℕ} (hn : n ≤ sp) (hsp : sp < 2 ^ 64) : pushSp sp n + n ≤ sp := by
  have hmod : (sp + 2 ^ 64 - n) % 2 ^ 64 = sp - n := by omega
  unfold pushSp
  rw [hmod]
  have := Nat.div_mul_le_self (sp - n) 16
  omega

theorem length_flatMap_leBytes (n : ℕ) (xs : List ℕ) : (xs.flatMap (leBytes n)).length = xs.length * n := by
  simp [List.length_flatMap, leBytes]

theorem uvmclear_spec {pte : Pte} (h : Pages K roots pend s) (hr : r ∈ roots) (hva : vpn < UPAGES)
    (hl : leaf s.mem r vpn = some pte) :
    wp (uvmclear r (vpn * PGSIZE)) (fun _ s' => Pages K roots pend s' ∧ SameBut roots r s s' ∧ s'.data = s.data ∧
      leaf s'.mem r = Function.update (leaf s.mem r) vpn (some { pte with perm := { pte.perm with u := false } })) never s := by
  have hv := (h.leaf_perm hr hl).1
  have hperm := (h.leaf_perm hr hl).2
  have hvp : vpn < VPAGES := hva.trans upages_lt.2
  simp only [uvmclear, wp_bind]
  refine wp_imp (walk_false r (va_lt (by omega))) fun res s1 hres => ?_
  obtain ⟨hs1, rfl⟩ := hres
  subst s1
  rw [Nat.mul_div_cancel _ (by decide : 0 < PGSIZE)]
  cases hslot : slotAt s.mem r vpn with
  | none =>
    rw [leaf_of_none hslot] at hl
    cases hl
  | some loc =>
    have hleaf := hl
    rw [leaf_of_slot hvp hslot] at hl
    split_ifs at hl
    cases hl
    simp only [wp_bind, wp_readPte, wp_setPte]
    obtain ⟨hleaf', hbut⟩ := h.leaf_write hr hvp hslot rfl (e := { s.mem loc.1 loc.2 with
      perm := { (s.mem loc.1 loc.2).perm with u := false } })
    have hval := h.user_val hr hslot rfl hva (e := { s.mem loc.1 loc.2 with
      perm := { (s.mem loc.1 loc.2).perm with u := false } })
    have hshape := h.leaf_shape hr hslot rfl (e := { s.mem loc.1 loc.2 with
      perm := { (s.mem loc.1 loc.2).perm with u := false } }) fun _ => hperm
    rw [if_pos hv] at hleaf' hval
    refine ⟨⟨?_, h.nodup, h.free, hshape⟩, hbut, trivial, hleaf'⟩
    have hsame : val (nextOf s.mem) roots counts (r, vpath vpn) = some (s.mem loc.1 loc.2).pa :=
      val_some.mpr ⟨⟨hr, .inr ⟨vpn, hva, rfl⟩⟩, by rw [follow_vpath _ _ hvp, hleaf]; rfl⟩
    have howned := h.owned
    rw [← Function.update_eq_self (r, vpath vpn) (val (nextOf s.mem) roots counts), hsame] at howned
    rw [hval]
    exact howned

end Exec

end Xv6.Vm
