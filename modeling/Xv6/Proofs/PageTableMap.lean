import Xv6.Sanity.Pagetable

/-! A page table is a map from page numbers to physical pages with their flags, and the operations of `vm.c` are operations
on this map. -/

namespace Xv6.Pagetable

open Wp Vm Forest

/-- **A page table is a map.** Of a table whose nodes are a tree of distinct pages: `mappages` of a page that is not mapped
adds the one entry, address and flags, if it returns 0, and changes nothing in the map if it returns -1; `uvmunmap` removes
the entries of its range; `walkaddr` gives the address in the map if the entry has `PTE_U`, and otherwise 0. They return,
and leave a tree of distinct pages. -/
theorem pagetable_refines_map (K : Kernel) (s : Mem) (root : ℕ) (h : Good s root) :
    (∀ (v : ℕ) (va pa perm : Word), v < MAXPAGES → va.toNat = v * PGSIZE → mapOf s root v = none → pa % 4096 = 0 →
      perm.toNat < 2 ^ 10 → ∃ r s', mappages root va 4096 pa perm s = .ok (r, s') ∧ Good s' root ∧ mapOf s' root =
        if r then Function.update (mapOf s root) v (some (pa, perm ||| PTE_V)) else mapOf s root) ∧
    (∀ (v n : ℕ) (va : Word) (doFree : Bool), v + n ≤ MAXPAGES → va.toNat = v * PGSIZE →
      (doFree = true → Freeable K s root v (v + n)) → ∃ s', uvmunmap K root va n doFree s = .ok ((), s') ∧ Good s' root ∧
        mapOf s' root = fun u => if v ≤ u ∧ u < v + n then none else mapOf s root u) ∧
    (∀ va : Word, ∃ pa, walkaddr root va s = .ok (pa, s) ∧ pa =
      match mapOf s root (va.toNat / PGSIZE) with
      | some (pa, flags) => if flags &&& PTE_U ≠ 0 then pa else 0
      | none => 0) := by
  refine ⟨fun v va pa perm hv hva hnone hpa hperm => ?_, fun v n va doFree hn hva hf => ?_, fun va => ?_⟩
  · exact wp_returns (mappages_spec h hv hva hnone hpa hperm)
  · obtain ⟨⟨⟩, s', hrun, hs'⟩ := wp_returns (uvmunmap_spec h hn hva hf)
    exact ⟨s', hrun, hs'⟩
  · obtain ⟨pa, s', hrun, rfl, hpa⟩ := wp_returns (walkaddr_spec root va)
    exact ⟨pa, hrun, hpa⟩

/-- An empty table, and three free pages. -/
def emptyTable : Mem := ⟨[0x80023000, 0x80024000, 0x80025000], fun _ _ => 0⟩

theorem emptyTable_good : Good emptyTable 0x80022000 := by
  have hnext : ∀ b i, next emptyTable b i = none := fun b i => next_none (BitVec.zero_and)
  have hroot : ∀ (q : List (Fin 512)) b, follow (next emptyTable) 0x80022000 q = some b → q = [] ∧ b = 0x80022000 := by
    intro q b hq
    cases q with
    | nil => exact ⟨rfl, (Option.some.inj hq).symm⟩
    | cons i rest =>
      rw [follow, hnext] at hq
      cases hq
  refine ⟨fun q q' b _ _ hq hq' => by rw [(hroot q b hq).1, (hroot q' b hq').1], by decide, ?_, by decide⟩
  rintro c hc ⟨q, -, hq⟩
  obtain ⟨-, rfl⟩ := hroot q c hq
  revert hc
  decide

theorem pagetable_refines_map_emptyTable : ∃ r s', mappages 0x80022000 0x5000 4096 0x80030000 (PTE_R ||| PTE_U) emptyTable =
    .ok (r, s') ∧ Good s' 0x80022000 ∧ mapOf s' 0x80022000 =
      if r then Function.update (mapOf emptyTable 0x80022000) 5 (some (0x80030000, (PTE_R ||| PTE_U) ||| PTE_V))
      else mapOf emptyTable 0x80022000 :=
  (pagetable_refines_map ⟨0x80022000, 0x80001000, by decide⟩ emptyTable 0x80022000 emptyTable_good).1 5 _ _ _
    (by decide) (by decide) (by decide +kernel) (by decide) (by decide)

end Xv6.Pagetable
