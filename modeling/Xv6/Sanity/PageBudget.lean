import Xv6.Sanity.VmOps

/-! What it takes to map pages that are not there: a free page for each of them, and one for each table that is not there. -/

namespace Xv6.Vm

open Wp Forest

variable {K : Kernel} {roots pend : Set ℕ} {s s' s'' : Mem} {r b va vpn : ℕ}

/-- The tables on the way to the pages `V`. -/
def tablesTo (V : Finset ℕ) : Finset (List (Fin 512)) := V.biUnion fun v => {[vx 2 v], [vx 2 v, vx 1 v]}

/-- Those of the tables `P` that are not there. -/
def absent (mem : ℕ → Fin 512 → Pte) (r : ℕ) (P : Finset (List (Fin 512))) : Finset (List (Fin 512)) :=
  P.filter fun p => follow (nextOf mem) r p = none

/-- How many free pages it takes to map the pages `V`. -/
def need (mem : ℕ → Fin 512 → Pte) (r : ℕ) (V : Finset ℕ) : ℕ := V.card + (absent mem r (tablesTo V)).card

theorem mem_tablesTo {V : Finset ℕ} {p : List (Fin 512)} :
    p ∈ tablesTo V ↔ ∃ v ∈ V, p = [vx 2 v] ∨ p = [vx 2 v, vx 1 v] := by
  simp only [tablesTo, Finset.mem_biUnion, Finset.mem_insert, Finset.mem_singleton]

theorem length_of_tablesTo {V : Finset ℕ} {p : List (Fin 512)} (h : p ∈ tablesTo V) : p.length ≤ 2 := by
  obtain ⟨v, -, rfl | rfl⟩ := mem_tablesTo.mp h
  · exact Nat.le_succ 1
  · exact le_rfl

theorem tablesTo_insert (v : ℕ) (V : Finset ℕ) : tablesTo (insert v V) = tablesTo {v} ∪ tablesTo V := by
  rw [tablesTo, Finset.biUnion_insert, tablesTo, Finset.singleton_biUnion]
  rfl

/-- The tables `P` are there now, and no others that have not been. -/
def Linked (r : ℕ) (P : Finset (List (Fin 512))) (s s' : Mem) : Prop :=
  ∀ p : List (Fin 512), p.length ≤ 2 → (follow (nextOf s'.mem) r p = none ↔ follow (nextOf s.mem) r p = none ∧ p ∉ P)

/-- And each of them has been paid for with a free page. -/
structure Paid (r : ℕ) (P : Finset (List (Fin 512))) (s s' : Mem) : Prop where
  tables : Linked r P s s'
  free : s'.freelist.length + (absent s.mem r P).card = s.freelist.length

section Paid

variable {P Q : Finset (List (Fin 512))}

/-- What is still absent of other tables. -/
theorem Linked.absent (h : Linked r P s s') (hQ : ∀ p ∈ Q, p.length ≤ 2) :
    Vm.absent s'.mem r Q = Vm.absent s.mem r Q \ Vm.absent s.mem r P := by
  ext p
  simp only [Vm.absent, Finset.mem_sdiff, Finset.mem_filter]
  constructor
  · rintro ⟨hp, hnone⟩
    obtain ⟨hnone, hP⟩ := (h p (hQ p hp)).mp hnone
    exact ⟨⟨hp, hnone⟩, fun hin => hP hin.1⟩
  · rintro ⟨⟨hp, hnone⟩, hP⟩
    exact ⟨hp, (h p (hQ p hp)).mpr ⟨hnone, fun hin => hP ⟨hin, hnone⟩⟩⟩

/-- The tables `Q` cost what they would have cost together with `P`. -/
theorem Linked.card (h : Linked r P s s') (hQ : ∀ p ∈ Q, p.length ≤ 2) :
    (Vm.absent s.mem r P).card + (Vm.absent s'.mem r Q).card = (Vm.absent s.mem r (P ∪ Q)).card := by
  rw [h.absent hQ, Nat.add_comm, Finset.card_sdiff_add_card, Vm.absent, Vm.absent, Vm.absent, Finset.filter_union,
    Finset.union_comm]

theorem Paid.trans (h : Paid r P s s') (h' : Paid r Q s' s'') (hQ : ∀ p ∈ Q, p.length ≤ 2) : Paid r (P ∪ Q) s s'' where
  tables p hp := by
    rw [h'.tables p hp, h.tables p hp, Finset.mem_union, not_or, and_assoc]
  free := by
    rw [← h.free, ← h'.free, ← h.tables.card hQ]
    omega

end Paid

theorem SameTables.follow {q : List (Fin 512)} (h : SameTables roots s s') (hr : r ∈ roots) (hq : q.length ≤ 3) :
    Forest.follow (nextOf s'.mem) r q = Forest.follow (nextOf s.mem) r q :=
  follow_same (fun p b hp hb => (h.table r hr p b hp hb).2) hq

section Walk

variable {q : List (Fin 512)} {i : Fin 512}

/-- Linking a table changes no way but the one to it. -/
theorem Pages.link_follow {c : ℕ} (h : Pages K roots pend s) (hr : r ∈ roots) (hq : q.length < 2)
    (hb : follow (nextOf s.mem) r q = some b) (hi : (s.mem b i).v = false) (hc : c ∈ pend) (hz : ∀ j, (s.mem c j).v = false)
    (hs' : s' = { s with mem := Function.update s.mem b (Function.update (s.mem b) i ⟨true, .none, c⟩) })
    {p : List (Fin 512)} (hp : p.length ≤ 2) :
    follow (nextOf s'.mem) r p = none ↔ follow (nextOf s.mem) r p = none ∧ p ≠ q ++ [i] := by
  obtain ⟨-, -, hlink⟩ := h.link hr hq hb hi hc hz hs'
  by_cases hin : ∃ rest, p = q ++ i :: rest
  · obtain ⟨rest, rfl⟩ := hin
    have hold : follow (nextOf s.mem) r (q ++ i :: rest) = none := by
      rw [follow_entry hb, nextOf_none.mpr hi]
      rfl
    cases rest with
    | nil => simp [hlink]
    | cons j rest =>
      have hcb : c ≠ b := by
        rintro rfl
        exact (h.table hr (by omega) hb).2.2 hc
      have hnext : nextOf s'.mem c j = none := by
        rw [hs', nextOf_none]
        dsimp only
        rw [Function.update_of_ne hcb]
        exact hz j
      have hsplit : q ++ i :: j :: rest = (q ++ [i]) ++ j :: rest := by simp
      have hnew : follow (nextOf s'.mem) r (q ++ i :: j :: rest) = none := by
        rw [hsplit, follow_entry hlink, hnext]
        rfl
      simp [hold, hnew]
  · have hne : p ≠ q ++ [i] := fun he => hin ⟨[], he⟩
    rw [h.write_follow hr hq.le hb hs' hr hp fun hx => hin hx.2]
    exact (and_iff_left hne).symm

/-- One level down, for a free page if there is no table. -/
theorem walkLevel_paid (h : Pages K roots pend s) (hr : r ∈ roots) (hq : q.length < 2) (hb : follow (nextOf s.mem) r q = some b) :
    wp (walkLevel b i true) (fun res s' => (res = none → s.freelist = [] ∧ follow (nextOf s.mem) r (q ++ [i]) = none) ∧
      (res ≠ none → Paid r {q ++ [i]} s s')) never s := by
  simp only [walkLevel, wp_bind, wp_readPte]
  cases hv : (s.mem b i).v with
  | true =>
    have hthere : follow (nextOf s.mem) r (q ++ [i]) = some (s.mem b i).pa := by
      rw [follow_entry hb, nextOf_some.mpr ⟨hv, rfl⟩]
      rfl
    refine ⟨by simp, fun _ => ⟨fun p _ => ⟨fun hp => ⟨hp, ?_⟩, And.left⟩, ?_⟩⟩
    · rw [Finset.mem_singleton]
      rintro rfl
      rw [hthere] at hp
      cases hp
    · rw [absent, Finset.filter_singleton, hthere]
      rfl
  | false =>
    have habsent : follow (nextOf s.mem) r (q ++ [i]) = none := by
      rw [follow_entry hb, nextOf_none.mpr hv]
      rfl
    simp only [Bool.not_true, Bool.false_eq_true, if_false, wp_bind]
    refine wp_mono (wp_and (kalloc_spec h) kalloc_free) (fun res s1 hres => ?_) fun e he => he.1
    obtain ⟨⟨rfl, rfl⟩ | ⟨c, rfl, -, -, h1, hsame⟩, -, hnil, hcount⟩ := hres
    · exact ⟨fun _ => ⟨hnil rfl, habsent⟩, fun hne => absurd rfl hne⟩
    · simp only [wp_bind, wp_memset, wp_setPte, wp_pure]
      obtain ⟨h2, hsame2⟩ := h1.scribble (b := c) (.inl (Set.mem_insert _ _)) (filled 0) fun _ => UInt8.ofNat 0
      have htables := hsame.trans hsame2
      obtain ⟨hb2, hm2⟩ := htables.table r hr q b (by omega) hb
      have hz : ∀ j, ((Function.update s1.mem c (filled 0)) c j).v = false := fun j => by simp [filled, pteOf]
      refine ⟨by simp, fun _ => ⟨fun p hp => ?_, ?_⟩⟩
      · rw [h2.link_follow hr hq hb2 (by rw [hm2]; exact hv) (Set.mem_insert _ _) hz rfl hp, htables.follow hr (by omega),
          Finset.mem_singleton]
      · rw [absent, Finset.filter_singleton, if_pos habsent, Finset.card_singleton]
        exact (hcount c rfl).2.1

/-- `walk` with `alloc` pays for the tables on the way, or there are not enough free pages for them. -/
theorem walk_paid (h : Pages K roots pend s) (hr : r ∈ roots) (hva : va < MAXVA) :
    wp (walk r va true) (fun res s' => (res = none → s.freelist.length < (absent s.mem r (tablesTo {va / PGSIZE})).card) ∧
      (res ≠ none → Paid r (tablesTo {va / PGSIZE}) s s')) never s := by
  have hto : tablesTo {va / PGSIZE} = {[vx 2 (va / PGSIZE)]} ∪ {[vx 2 (va / PGSIZE), vx 1 (va / PGSIZE)]} := by
    rw [tablesTo, Finset.singleton_biUnion]
    rfl
  have hlen : ∀ p ∈ ({[vx 2 (va / PGSIZE), vx 1 (va / PGSIZE)]} : Finset (List (Fin 512))), p.length ≤ 2 := by
    intro p hp
    rw [Finset.mem_singleton.mp hp]
    exact le_rfl
  simp only [walk, if_neg (Nat.not_le.mpr hva), wp_bind, px_eq, hto]
  refine wp_mono (wp_and (walkLevel_true h hr (q := []) (by simp) rfl) (walkLevel_paid h hr (q := []) (by simp) rfl))
    (fun res s1 hres => ?_) fun e he => he.1
  obtain ⟨⟨h1, -, hf1⟩, hfail1, hpaid1⟩ := hres
  cases res with
  | none =>
    obtain ⟨hnil, hnone⟩ := hfail1 rfl
    refine ⟨fun _ => ?_, fun hne => absurd rfl hne⟩
    rw [hnil]
    refine Finset.card_pos.mpr ⟨[vx 2 (va / PGSIZE)], ?_⟩
    rw [absent, Finset.mem_filter]
    exact ⟨Finset.mem_union_left _ (Finset.mem_singleton_self _), hnone⟩
  | some t =>
    have hpaid1 := hpaid1 nofun
    rw [List.nil_append] at hpaid1
    simp only [wp_bind]
    refine wp_imp (walkLevel_paid h1 hr (q := [vx 2 (va / PGSIZE)]) (by simp) (hf1 t rfl)) fun res s2 hres => ?_
    obtain ⟨hfail2, hpaid2⟩ := hres
    rw [List.singleton_append] at hfail2 hpaid2
    cases res with
    | none =>
      obtain ⟨hnil, hnone⟩ := hfail2 rfl
      refine ⟨fun _ => ?_, fun hne => absurd rfl hne⟩
      rw [← hpaid1.tables.card hlen, ← hpaid1.free, hnil, List.length_nil, Nat.zero_add, Nat.lt_add_right_iff_pos]
      rw [absent, Finset.filter_singleton, if_pos hnone]
      exact Nat.one_pos
    | some u => exact ⟨nofun, fun _ => hpaid1.trans (hpaid2 nofun) hlen⟩

/-- The same for a page that is mapped. -/
theorem mappages_paid (pa : ℕ) (perm : Perm) (h : Pages K roots pend s) (hr : r ∈ roots) (hv : vpn < UPAGES) :
    wp (mappages r (vpn * PGSIZE) PGSIZE pa perm) (fun ok s' =>
      (ok = false → s.freelist.length < (absent s.mem r (tablesTo {vpn})).card) ∧
      (ok = true → Paid r (tablesTo {vpn}) s s')) (fun _ => True) s := by
  have hsize : PGSIZE / PGSIZE = 1 := by decide
  have hdiv : vpn * PGSIZE / PGSIZE = vpn := Nat.mul_div_cancel _ (by decide)
  have hwalk := walk_paid h hr (va_lt (by omega : vpn < UPAGES + 2))
  have hwalk' := walk_true h hr (va_lt (by omega : vpn < UPAGES + 2))
  rw [hdiv] at hwalk hwalk'
  simp only [mappages, Nat.mul_mod_left, ne_eq, not_true_eq_false, if_false, Nat.mod_self, show PGSIZE ≠ 0 by decide, hsize, mapFrom,
    wp_bind]
  refine wp_mono (wp_and hwalk' hwalk) (fun res s1 hres => ?_) fun e _ => trivial
  obtain ⟨⟨h1, -, hslot⟩, hfail, hpaid⟩ := hres
  cases res with
  | none => exact ⟨fun _ => hfail rfl, by simp⟩
  | some loc =>
    simp only [wp_bind, wp_readPte, wp_ite, wp_throw, wp_setPte, wp_pure]
    refine ⟨fun _ => trivial, fun _ => ⟨by simp, fun _ => ⟨fun p hp => ?_, (hpaid (by simp)).free⟩⟩⟩
    -- the entry is in the last table
    obtain ⟨b, hb, rfl⟩ := slotAt_some (hslot loc rfl)
    rw [h1.write_follow hr (by simp) hb rfl hr hp, (hpaid (by simp)).tables p hp]
    rintro ⟨-, rest, rfl⟩
    simp at hp

end Walk

end Xv6.Vm
