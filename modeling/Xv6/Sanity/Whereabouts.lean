import Xv6.Sanity.ExecOps

/-! The places a page can be in. Under the invariant each page of the allocator is in one of them. -/

namespace Xv6.Vm

open Wp Holders Forest Ownership

/-- On the free list, a node of the page table of a process, a page of its user memory, its trapframe, or with
another user of the allocator. -/
inductive Place where
  | free (i : ℕ)
  | node (p : Slot) (path : List (Fin 512))
  | user (p : Slot) (vpn : ℕ)
  | trapframe (p : Slot)
  | other (i : ℕ)

def Holds (σ : St) (pa : ℕ) : Place → Prop
  | .free i => σ.m.freelist[i]? = some pa
  | .node p path => path.length ≤ 2 ∧ ∃ r, (σ.proc p).pagetable = some r ∧ follow (nextOf σ.m.mem) r path = some pa
  | .user p vpn => vpn < UPAGES ∧ ∃ r, (σ.proc p).pagetable = some r ∧ ∃ pte, leaf σ.m.mem r vpn = some pte ∧ pte.pa = pa
  | .trapframe p => (σ.proc p).trapframe = some pa
  | .other i => σ.others[i]? = some pa

/-- Whose place it is. -/
def Place.proc : Place → Option Slot
  | .node p _ | .user p _ | .trapframe p => some p
  | .free _ | .other _ => none

/-- The pages of a process. -/
def pagesOf (σ : St) (p : Slot) : Set ℕ := {pa | ∃ x : Place, x.proc = some p ∧ Holds σ pa x}

variable {K : Kernel} {σ : St} {pa : ℕ} {x y : Place}

/-- A place in the page table of a process, with its path. -/
def Place.At (p : Slot) (path : List (Fin 512)) : Place → Prop
  | .node q path' => q = p ∧ path' = path ∧ path.length ≤ 2
  | .user q vpn => q = p ∧ vpn < UPAGES ∧ vpath vpn = path
  | _ => False

theorem Place.At.unique {p : Slot} {path : List (Fin 512)} (hx : x.At p path) (hy : y.At p path) : x = y := by
  have hlen : ∀ vpn, (vpath vpn).length = 3 := fun _ => rfl
  cases x with
  | node q path' =>
    obtain ⟨rfl, rfl, hle⟩ := hx
    cases y with
    | node q' path'' =>
      obtain ⟨rfl, rfl, -⟩ := hy
      rfl
    | user q' vpn =>
      obtain ⟨-, -, rfl⟩ := hy
      have := hlen vpn
      omega
    | free i => exact hy.elim
    | trapframe q => exact hy.elim
    | other i => exact hy.elim
  | user q vpn =>
    obtain ⟨rfl, hlt, rfl⟩ := hx
    cases y with
    | node q' path'' =>
      obtain ⟨-, -, hle⟩ := hy
      have := hlen vpn
      omega
    | user q' vpn' =>
      obtain ⟨rfl, hlt', heq⟩ := hy
      rw [vpath_inj (hlt'.trans upages_lt.2) (hlt.trans upages_lt.2) heq]
    | free i => exact hy.elim
    | trapframe q => exact hy.elim
    | other i => exact hy.elim
  | free i => exact hx.elim
  | trapframe q => exact hx.elim
  | other i => exact hx.elim

/-- Free, in a page table, or in a hand. -/
inductive Kind (K : Kernel) (σ : St) (pa : ℕ) (x : Place) : Prop
  | free (i : ℕ) (hx : x = .free i) (hi : σ.m.freelist[i]? = some pa)
  | tree (p : Slot) (r : ℕ) (path : List (Fin 512)) (hr : (σ.proc p).pagetable = some r)
      (hv : val (nextOf σ.m.mem) (roots σ.proc) counts (r, path) = some pa) (hx : x.At p path)
  | trapframe (p : Slot) (hx : x = .trapframe p) (hp : (σ.proc p).trapframe = some pa)
  | other (i : ℕ) (hx : x = .other i) (hi : σ.others[i]? = some pa)

theorem Holds.kind (h : Holds σ pa x) : Kind K σ pa x := by
  cases x with
  | free i => exact .free i rfl h
  | node p path =>
    obtain ⟨hle, r, hr, hf⟩ := h
    exact .tree p r path hr (val_some.mpr ⟨⟨mem_holdings hr, .inl hle⟩, hf⟩) ⟨rfl, rfl, hle⟩
  | user p vpn =>
    obtain ⟨hlt, r, hr, pte, hl, rfl⟩ := h
    have hf : follow (nextOf σ.m.mem) r (vpath vpn) = some pte.pa := by
      rw [follow_vpath _ _ (hlt.trans upages_lt.2), hl]
      rfl
    exact .tree p r (vpath vpn) hr (val_some.mpr ⟨⟨mem_holdings hr, .inr ⟨vpn, hlt, rfl⟩⟩, hf⟩) ⟨rfl, hlt, rfl⟩
  | trapframe p => exact .trapframe p rfl h
  | other i => exact .other i rfl h

variable (h : Inv K ∅ σ)

include h

theorem Inv.held_trapframe {p : Slot} (hp : (σ.proc p).trapframe = some pa) :
    pa ∈ area K ∧ pa ∉ σ.m.freelist ∧ ∀ {s}, val (nextOf σ.m.mem) (roots σ.proc) counts s ≠ some pa := by
  have hin : pa ∈ held σ.proc σ.others ∅ := mem_holdings hp
  obtain ⟨ha, hm⟩ := h.pages.owned.pending hin
  exact ⟨ha, by simpa using hm, fun hs => (h.pages.owned.owned hs).2.2 hin⟩

theorem Inv.held_other (hp : pa ∈ σ.others) :
    pa ∈ area K ∧ pa ∉ σ.m.freelist ∧ ∀ {s}, val (nextOf σ.m.mem) (roots σ.proc) counts s ≠ some pa := by
  have hin : pa ∈ held σ.proc σ.others ∅ := .inr (.inl hp)
  obtain ⟨ha, hm⟩ := h.pages.owned.pending hin
  exact ⟨ha, by simpa using hm, fun hs => (h.pages.owned.owned hs).2.2 hin⟩

theorem Inv.tree {s : ℕ × List (Fin 512)} (hs : val (nextOf σ.m.mem) (roots σ.proc) counts s = some pa) :
    pa ∈ area K ∧ pa ∉ σ.m.freelist := by
  obtain ⟨ha, hm, -⟩ := h.pages.owned.owned hs
  exact ⟨ha, by simpa using hm⟩

theorem Holds.area (hx : Holds σ pa x) : pa ∈ area K := by
  cases hx.kind (K := K) with
  | free i _ hi => exact h.pages.free pa (List.mem_of_getElem? hi)
  | tree p r path hr hv _ => exact (h.tree hv).1
  | trapframe p _ hp => exact (h.held_trapframe hp).1
  | other i _ hi => exact (h.held_other (List.mem_of_getElem? hi)).1

theorem Holds.unique (hx : Holds σ pa x) (hy : Holds σ pa y) : x = y := by
  cases hx.kind (K := K) with
  | free i hx hi =>
    have hfree := List.mem_of_getElem? hi
    cases hy.kind (K := K) with
    | free j hy hj =>
      subst hx hy
      obtain ⟨hlt, rfl⟩ := List.getElem?_eq_some_iff.mp hi
      obtain ⟨hlt', heq⟩ := List.getElem?_eq_some_iff.mp hj
      rw [(h.pages.nodup.getElem_inj_iff).mp heq]
    | tree p r path hr hv _ => exact absurd hfree (h.tree hv).2
    | trapframe p _ hp => exact absurd hfree (h.held_trapframe hp).2.1
    | other j _ hj => exact absurd hfree (h.held_other (List.mem_of_getElem? hj)).2.1
  | tree p r path hr hv hx =>
    cases hy.kind (K := K) with
    | free j _ hj => exact absurd (List.mem_of_getElem? hj) (h.tree hv).2
    | tree p' r' path' hr' hv' hy =>
      obtain ⟨rfl, rfl⟩ := Prod.mk.inj (h.pages.owned.inj hv hv')
      obtain rfl : p = p' := h.tables.inj hr hr'
      exact hx.unique hy
    | trapframe p' _ hp => exact absurd hv (h.held_trapframe hp).2.2
    | other j _ hj => exact absurd hv (h.held_other (List.mem_of_getElem? hj)).2.2
  | trapframe p hx hp =>
    cases hy.kind (K := K) with
    | free j _ hj => exact absurd (List.mem_of_getElem? hj) (h.held_trapframe hp).2.1
    | tree p' r path hr hv _ => exact absurd hv (h.held_trapframe hp).2.2
    | trapframe p' hy hp' =>
      subst hx hy
      rw [h.frames.inj hp hp']
    | other j _ hj => exact absurd (.inl (List.mem_of_getElem? hj)) (h.frames.ne hp)
  | other i hx hi =>
    cases hy.kind (K := K) with
    | free j _ hj => exact absurd (List.mem_of_getElem? hj) (h.held_other (List.mem_of_getElem? hi)).2.1
    | tree p r path hr hv _ => exact absurd hv (h.held_other (List.mem_of_getElem? hi)).2.2
    | trapframe p _ hp => exact absurd (.inl (List.mem_of_getElem? hi)) (h.frames.ne hp)
    | other j hy hj =>
      subst hx hy
      obtain ⟨hlt, rfl⟩ := List.getElem?_eq_some_iff.mp hi
      obtain ⟨hlt', heq⟩ := List.getElem?_eq_some_iff.mp hj
      rw [(h.others_nodup.getElem_inj_iff).mp heq]

theorem Inv.exists_place (hpa : pa ∈ area K) : ∃ x, Holds σ pa x := by
  by_cases hfree : pa ∈ σ.m.freelist
  · obtain ⟨i, hi⟩ := List.mem_iff_getElem?.mp hfree
    exact ⟨.free i, hi⟩
  · rcases h.pages.owned.cover hpa (by simpa using hfree) with (⟨p, hp⟩ | ho | he) | ⟨⟨r, path⟩, hv⟩
    · exact ⟨.trapframe p, hp⟩
    · obtain ⟨i, hi⟩ := List.mem_iff_getElem?.mp ho
      exact ⟨.other i, hi⟩
    · exact he.elim
    · obtain ⟨⟨⟨p, hr⟩ | he, hle | ⟨vpn, hlt, rfl⟩⟩, hf⟩ := val_some.mp hv
      · exact ⟨.node p path, hle, r, hr, hf⟩
      · rw [follow_vpath _ _ (hlt.trans upages_lt.2)] at hf
        obtain ⟨pte, hl, hpte⟩ := Option.map_eq_some_iff.mp hf
        exact ⟨.user p vpn, hlt, r, hr, pte, hl, hpte⟩
      · exact he.elim
      · exact he.elim

/-- Each page of the allocator is in one place. -/
theorem Inv.one_place (hpa : pa ∈ area K) : ∃! x, Holds σ pa x := by
  obtain ⟨x, hx⟩ := h.exists_place hpa
  exact ⟨x, hx, fun y hy => Holds.unique h hy hx⟩

/-- A page that is mapped twice is the trampoline. -/
theorem Inv.mapped_once {p q : Slot} {r r' v w : ℕ} {pte pte' : Pte} (hr : (σ.proc p).pagetable = some r)
    (hr' : (σ.proc q).pagetable = some r') (hl : leaf σ.m.mem r v = some pte) (hl' : leaf σ.m.mem r' w = some pte')
    (hpa : pte.pa = pte'.pa) (hne : pte.pa ≠ K.trampoline) : p = q ∧ v = w := by
  have place : ∀ {p r v pte}, (σ.proc p).pagetable = some r → leaf σ.m.mem r v = some pte → pte.pa ≠ K.trampoline →
      (v < UPAGES ∧ Holds σ pte.pa (.user p v)) ∨ (v = UPAGES ∧ Holds σ pte.pa (.trapframe p)) := by
    intro p r v pte hr hl hne
    obtain ⟨hsz, f, hf, hv⟩ := (h.sane p).table r hr
    by_cases hlt : v < UPAGES
    · exact .inl ⟨hlt, hlt, r, hr, pte, hl, rfl⟩
    · rw [hv v ((npages_le hsz).trans (Nat.le_of_not_lt hlt)), kernelLeaves] at hl
      by_cases h0 : v = UPAGES
      · rw [h0, Function.update_self, Option.some.injEq] at hl
        subst hl
        exact .inr ⟨h0, hf⟩
      · rw [Function.update_of_ne h0] at hl
        by_cases h1 : v = UPAGES + 1
        · rw [h1, Function.update_self, Option.some.injEq] at hl
          subst hl
          exact absurd rfl hne
        · rw [Function.update_of_ne h1] at hl
          cases hl
  rcases place hr hl hne with ⟨hv, hx⟩ | ⟨rfl, hx⟩ <;> rcases place hr' hl' (hpa ▸ hne) with ⟨hw, hy⟩ | ⟨rfl, hy⟩ <;>
    rw [← hpa] at hy <;> have heq := Holds.unique h hx hy
  · exact Place.user.inj heq
  · cases heq
  · cases heq
  · exact ⟨Place.trapframe.inj heq, rfl⟩

omit h in
theorem area_finite (K : Kernel) : (area K).Finite := (Set.finite_lt_nat PHYSTOP).subset fun _ hpa => hpa.2.2

theorem Inv.pagesOf_unused {p : Slot} (hp : (σ.proc p).state = .unused) : pagesOf σ p = ∅ := by
  obtain ⟨hr, hf⟩ := (h.sane p).unused hp
  refine Set.eq_empty_of_forall_notMem ?_
  rintro pa ⟨x, hx, hh⟩
  cases x with
  | node q path =>
    cases hx
    obtain ⟨-, r, hr', -⟩ := hh
    cases hr.symm.trans hr'
  | user q vpn =>
    cases hx
    obtain ⟨-, r, hr', -⟩ := hh
    cases hr.symm.trans hr'
  | trapframe q =>
    cases hx
    cases hf.symm.trans hh
  | free i => cases hx
  | other i => cases hx

omit h in
theorem mem_unowned : pa ∈ σ.m.freelist ++ σ.others ↔ ∃ x : Place, x.proc = none ∧ Holds σ pa x := by
  rw [List.mem_append, List.mem_iff_getElem?, List.mem_iff_getElem?]
  constructor
  · rintro (⟨i, hi⟩ | ⟨i, hi⟩)
    · exact ⟨.free i, rfl, hi⟩
    · exact ⟨.other i, rfl, hi⟩
  · rintro ⟨x, hx, hh⟩
    cases x with
    | free i => exact .inl ⟨i, hh⟩
    | other i => exact .inr ⟨i, hh⟩
    | node p path => cases hx
    | user p vpn => cases hx
    | trapframe p => cases hx

/-- The free pages, those of other users and those of the processes make up the area. -/
theorem Inv.count : (σ.m.freelist ++ σ.others).length + ∑ p, (pagesOf σ p).ncard = (area K).ncard := by
  refine card_parts (area_finite K) ?_ (fun pa => ?_) (fun pa hl p hp => ?_) fun pa p q hp hq => ?_
  · exact List.nodup_append.mpr ⟨h.pages.nodup, h.others_nodup, fun a ha b hb hab => (h.held_other hb).2.1 (hab ▸ ha)⟩
  · rw [mem_unowned]
    constructor
    · intro hpa
      obtain ⟨x, hx⟩ := h.exists_place hpa
      cases hp : x.proc with
      | none => exact .inl ⟨x, hp, hx⟩
      | some p => exact .inr ⟨p, x, hp, hx⟩
    · rintro (⟨x, -, hx⟩ | ⟨p, x, -, hx⟩)
      · exact Holds.area h hx
      · exact Holds.area h hx
  · obtain ⟨x, hxp, hx⟩ := mem_unowned.mp hl
    obtain ⟨y, hyp, hy⟩ := hp
    rw [Holds.unique h hx hy, hyp] at hxp
    cases hxp
  · obtain ⟨x, hxp, hx⟩ := hp
    obtain ⟨y, hyp, hy⟩ := hq
    rw [Holds.unique h hx hy, hyp] at hxp
    exact (Option.some.inj hxp).symm

end Xv6.Vm
