import Xv6.Lib.Forest
import Xv6.Spec.Vm

/-! Page tables as a forest. A page of the allocator is free, or in a page table, or pending: held by
somebody who keeps it outside of page tables. What a page table is to its users is the function
`leaf`, from page numbers to entries; the tables in between do not show. -/

namespace Xv6.Vm

open Forest Ownership

/-- The page that each entry points to. -/
def nextOf (mem : ℕ → Fin 512 → Pte) : ℕ → Fin 512 → Option ℕ := fun b i => if (mem b i).v then some (mem b i).pa else none

/-- The index of virtual page `vpn` at a level, and the way to its entry. -/
def vx (level vpn : ℕ) : Fin 512 := Fin.ofNat 512 (vpn / 2 ^ (9 * level))
def vpath (vpn : ℕ) : List (Fin 512) := [vx 2 vpn, vx 1 vpn, vx 0 vpn]

/-- The virtual pages below the trapframe. -/
def UPAGES : ℕ := TRAPFRAME / PGSIZE

/-- All virtual pages. -/
def VPAGES : ℕ := 2 ^ 27

/-- The places whose pages belong to a page table: the tables, and user memory. -/
def counts (path : List (Fin 512)) : Prop := path.length ≤ 2 ∨ ∃ vpn < UPAGES, path = vpath vpn

/-- The entry for `vpn`, if the tables down to it exist. -/
def slotAt (mem : ℕ → Fin 512 → Pte) (r vpn : ℕ) : Option (ℕ × Fin 512) :=
  (follow (nextOf mem) r [vx 2 vpn, vx 1 vpn]).map fun b => (b, vx 0 vpn)

/-- What a page table maps `vpn` to. -/
def leaf (mem : ℕ → Fin 512 → Pte) (r vpn : ℕ) : Option Pte :=
  if vpn < VPAGES then (slotAt mem r vpn).bind fun loc => if (mem loc.1 loc.2).v then some (mem loc.1 loc.2) else none
  else none

/-- The pages that `kalloc` hands out. -/
def area (K : Kernel) : Set ℕ := {pa | pa % PGSIZE = 0 ∧ K.kend ≤ pa ∧ pa < PHYSTOP}

section Paths

theorem upages_lt : UPAGES + 2 = MAXVA / PGSIZE ∧ UPAGES < VPAGES := by decide

theorem trapframe_eq : UPAGES * PGSIZE = TRAPFRAME ∧ TRAPFRAME ≤ MAXVA := by decide

theorem trampoline_eq : (UPAGES + 1) * PGSIZE = TRAMPOLINE := by decide

theorem physical_lt : PHYSTOP / PGSIZE < UPAGES := by decide

attribute [irreducible] UPAGES

theorem vpath_inj {v w : ℕ} (hv : v < VPAGES) (hw : w < VPAGES) (h : vpath v = vpath w) : v = w := by
  simp only [VPAGES] at hv hw
  simp only [vpath, vx, List.cons.injEq, and_true, Fin.ext_iff, Fin.val_ofNat] at h
  omega

theorem exists_vpath (i j k : Fin 512) : ∃ vpn < VPAGES, vpath vpn = [i, j, k] := by
  refine ⟨i * 2 ^ 18 + j * 2 ^ 9 + k, by simp only [VPAGES]; omega, ?_⟩
  simp only [vpath, vx, List.cons.injEq, and_true, Fin.ext_iff, Fin.val_ofNat]
  omega

theorem counts_closed : Closed counts := by
  rintro q rest (h | ⟨vpn, hvpn, h⟩)
  · exact .inl (by simp at h; omega)
  · by_cases hr : rest = []
    · subst hr
      rw [List.append_nil] at h
      exact .inr ⟨vpn, hvpn, h⟩
    · have hlen := congrArg List.length h
      have hpos := List.length_pos_iff.mpr hr
      simp only [List.length_append, vpath, List.length_cons, List.length_nil] at hlen
      exact .inl (by omega)

theorem counts_vpath {vpn : ℕ} (h : vpn < VPAGES) : counts (vpath vpn) ↔ vpn < UPAGES := by
  constructor
  · rintro (hlen | ⟨w, hw, he⟩)
    · simp [vpath] at hlen
    · rwa [vpath_inj h (hw.trans upages_lt.2) he]
  · exact fun hu => .inr ⟨vpn, hu, rfl⟩

theorem px_eq (level va : ℕ) : px level va = vx level (va / PGSIZE) := by
  simp only [px, vx, PGSIZE, Nat.shiftRight_eq_div_pow, Nat.div_div_eq_div_mul, pow_add]
  rfl

end Paths

section Entries

variable {mem mem' : ℕ → Fin 512 → Pte} {r b vpn : ℕ} {i : Fin 512} {pte : Pte}

theorem nextOf_some {c : ℕ} : nextOf mem b i = some c ↔ (mem b i).v = true ∧ (mem b i).pa = c := by
  unfold nextOf
  split_ifs with h
  · simp [h]
  · simp [h]

theorem nextOf_none : nextOf mem b i = none ↔ (mem b i).v = false := by
  unfold nextOf
  split_ifs with h
  · simp [h]
  · simpa using h

theorem nextOf_update (mem : ℕ → Fin 512 → Pte) (b : ℕ) (page : Fin 512 → Pte) :
    nextOf (Function.update mem b page) = Function.update (nextOf mem) b fun i => if (page i).v then some (page i).pa else none := by
  funext b' i
  by_cases hb : b' = b
  · subst hb
    simp [nextOf]
  · simp [nextOf, Function.update_of_ne hb]

theorem nextOf_entry (mem : ℕ → Fin 512 → Pte) (b : ℕ) (i : Fin 512) (pte : Pte) :
    nextOf (Function.update mem b (Function.update (mem b) i pte)) =
      Function.update (nextOf mem) b (Function.update (nextOf mem b) i (if pte.v then some pte.pa else none)) := by
  rw [nextOf_update]
  congr 1
  funext j
  by_cases hj : j = i
  · subst hj
    simp
  · simp [Function.update_of_ne hj, nextOf]

theorem slotAt_some {loc : ℕ × Fin 512} (h : slotAt mem r vpn = some loc) :
    ∃ b, follow (nextOf mem) r [vx 2 vpn, vx 1 vpn] = some b ∧
      loc = (b, vx 0 vpn) := by
  obtain ⟨b, hb, rfl⟩ := Option.map_eq_some_iff.mp h
  exact ⟨b, hb, rfl⟩

theorem leaf_of_slot {loc : ℕ × Fin 512} (hv : vpn < VPAGES) (h : slotAt mem r vpn = some loc) :
    leaf mem r vpn = if (mem loc.1 loc.2).v then some (mem loc.1 loc.2) else none := by
  rw [leaf, if_pos hv, h]
  rfl

theorem leaf_of_none (h : slotAt mem r vpn = none) : leaf mem r vpn = none := by
  unfold leaf
  split_ifs
  · rw [h]
    rfl
  · rfl

/-- The last step of the way to a page. -/
theorem follow_vpath (mem : ℕ → Fin 512 → Pte) (r : ℕ) (hv : vpn < VPAGES) :
    follow (nextOf mem) r (vpath vpn) = (leaf mem r vpn).map Pte.pa := by
  have hsplit : vpath vpn = [vx 2 vpn, vx 1 vpn] ++ [vx 0 vpn] := rfl
  cases hf : follow (nextOf mem) r [vx 2 vpn, vx 1 vpn] with
  | none =>
    rw [hsplit, follow_append, hf, leaf_of_none (by rw [slotAt, hf]; rfl)]
    rfl
  | some b =>
    rw [hsplit, follow_entry hf, leaf_of_slot hv (by rw [slotAt, hf]; rfl)]
    dsimp only
    cases hb : (mem b (vx 0 vpn)).v with
    | true => simp [nextOf_some.mpr ⟨hb, rfl⟩]
    | false => simp [nextOf_none.mpr hb]

theorem leaf_eq_none (h : follow (nextOf mem) r (vpath vpn) = none) : leaf mem r vpn = none := by
  by_cases hv : vpn < VPAGES
  · rw [follow_vpath mem r hv] at h
    exact Option.map_eq_none_iff.mp h
  · exact if_neg hv

end Entries

/-- The state of the allocator and the page tables: `roots` are the page tables, `pend` the pages that
somebody holds outside of them. -/
structure Pages (K : Kernel) (roots pend : Set ℕ) (s : Mem) : Prop where
  owned : Owned (val (nextOf s.mem) roots counts) (fun b => decide (b ∉ s.freelist)) (area K) pend
  nodup : s.freelist.Nodup
  free : ∀ b ∈ s.freelist, b ∈ area K
  shape : ∀ r ∈ roots, ∀ q b i, q.length ≤ 2 → follow (nextOf s.mem) r q = some b → (s.mem b i).v = true →
    ((s.mem b i).perm.leaf = true ↔ q.length = 2)

/-- The pages of user memory hold what they have held. -/
def SameData (roots : Set ℕ) (s s' : Mem) : Prop :=
  ∀ r ∈ roots, ∀ v < UPAGES, ∀ e, leaf s.mem r v = some e → s'.data e.pa = s.data e.pa

/-- The page tables map what they have mapped, and it is what it was. -/
structure SameLeaves (roots : Set ℕ) (s s' : Mem) : Prop where
  leaf : ∀ r ∈ roots, leaf s'.mem r = leaf s.mem r
  data : SameData roots s s'

/-- The page tables are at the same places with the same entries. -/
structure SameTables (roots : Set ℕ) (s s' : Mem) : Prop where
  table : ∀ r ∈ roots, ∀ q b, q.length ≤ 2 →
    follow (nextOf s.mem) r q = some b → follow (nextOf s'.mem) r q = some b ∧ s'.mem b = s.mem b
  data : SameData roots s s'

theorem SameData.refl (roots : Set ℕ) (s : Mem) : SameData roots s s := fun _ _ _ _ _ _ => rfl

theorem SameLeaves.refl (roots : Set ℕ) (s : Mem) : SameLeaves roots s s := ⟨fun _ _ => rfl, .refl _ _⟩

theorem SameLeaves.data_trans {roots : Set ℕ} {s s' s'' : Mem} (h : SameLeaves roots s s') (h' : SameData roots s' s'') :
    SameData roots s s'' := fun r hr v hv e he =>
  (h' r hr v hv e (by rw [h.leaf r hr]; exact he)).trans (h.data r hr v hv e he)

theorem SameLeaves.trans {roots : Set ℕ} {s s' s'' : Mem} (h : SameLeaves roots s s') (h' : SameLeaves roots s' s'') :
    SameLeaves roots s s'' where
  leaf := fun r hr => (h'.leaf r hr).trans (h.leaf r hr)
  data := h.data_trans h'.data

theorem SameLeaves.mono {roots roots' : Set ℕ} {s s' : Mem} (h : SameLeaves roots s s') (hsub : roots' ⊆ roots) :
    SameLeaves roots' s s' :=
  ⟨fun r hr => h.leaf r (hsub hr), fun r hr => h.data r (hsub hr)⟩

section Tables

variable {K : Kernel} {roots pend : Set ℕ} {s s' : Mem} {r b c vpn : ℕ} {q : List (Fin 512)} {i : Fin 512}

/-- A table is not free and not pending. -/
theorem Pages.table (h : Pages K roots pend s) (hr : r ∈ roots) (hq : q.length ≤ 2) (hb : follow (nextOf s.mem) r q = some b) :
    b ∈ area K ∧ b ∉ s.freelist ∧ b ∉ pend := by
  have hc : counts (q ++ []) := by
    rw [List.append_nil]
    exact .inl hq
  have ho := table_owned counts_closed h.owned hr hc hb
  simpa using ho

/-- User memory is not free and not pending. -/
theorem Pages.user (h : Pages K roots pend s) (hr : r ∈ roots) (hv : vpn < UPAGES) {pte : Pte} (hl : leaf s.mem r vpn = some pte) :
    pte.pa ∈ area K ∧ pte.pa ∉ s.freelist ∧ pte.pa ∉ pend := by
  have hf : follow (nextOf s.mem) r (vpath vpn) = some pte.pa := by rw [follow_vpath _ _ (hv.trans upages_lt.2), hl]; rfl
  have ho := h.owned.owned (val_some.mpr ⟨⟨hr, .inr ⟨vpn, hv, rfl⟩⟩, hf⟩)
  simpa using ho

theorem Pages.table_ne_user {r' : ℕ} (h : Pages K roots pend s) (hr : r ∈ roots) (hq : q.length ≤ 2)
    (hb : follow (nextOf s.mem) r q = some b) (hr' : r' ∈ roots) (hv : vpn < UPAGES) {pte : Pte}
    (hl : leaf s.mem r' vpn = some pte) : b ≠ pte.pa := by
  rintro rfl
  have hf : follow (nextOf s.mem) r' (vpath vpn) = some pte.pa := by rw [follow_vpath _ _ (hv.trans upages_lt.2), hl]; rfl
  have hplace := h.owned.inj (val_some.mpr ⟨⟨hr, .inl hq⟩, hb⟩) (val_some.mpr ⟨⟨hr', .inr ⟨vpn, hv, rfl⟩⟩, hf⟩)
  have hlen := congrArg List.length (Prod.mk.inj hplace).2
  simp only [vpath, List.length_cons, List.length_nil] at hlen
  omega

section Same

variable (hsame : ∀ q b, q.length ≤ 2 → follow (nextOf s.mem) r q = some b → s'.mem b = s.mem b)

include hsame

/-- If no table changes, neither does what is found through them. -/
theorem follow_same (hq : q.length ≤ 3) : follow (nextOf s'.mem) r q = follow (nextOf s.mem) r q := by
  refine follow_congr fun q' i rest b hpath hb => ?_
  have hlen : q'.length ≤ 2 := by
    rw [hpath, List.length_append, List.length_cons] at hq
    omega
  unfold nextOf
  rw [hsame q' b hlen hb]

theorem leaf_same : leaf s'.mem r = leaf s.mem r := by
  funext vpn
  have hf := follow_same hsame (q := [vx 2 vpn, vx 1 vpn]) (by simp)
  unfold leaf slotAt
  rw [hf]
  split_ifs with hv
  · cases hb : follow (nextOf s.mem) r [vx 2 vpn, vx 1 vpn] with
    | none => rfl
    | some b => simp [hsame _ b (by simp) hb]
  · rfl

theorem shape_same (hshape : ∀ q b i, q.length ≤ 2 → follow (nextOf s.mem) r q = some b → (s.mem b i).v = true →
      ((s.mem b i).perm.leaf = true ↔ q.length = 2)) (q : List (Fin 512)) (b : ℕ) (i : Fin 512) (hq : q.length ≤ 2)
    (hb : follow (nextOf s'.mem) r q = some b) (hv : (s'.mem b i).v = true) :
    (s'.mem b i).perm.leaf = true ↔ q.length = 2 := by
  rw [follow_same hsame (by omega)] at hb
  rw [hsame q b hq hb] at hv ⊢
  exact hshape q b i hq hb hv

end Same

theorem SameTables.refl (roots : Set ℕ) (s : Mem) : SameTables roots s s :=
  ⟨fun _ _ _ _ _ hb => ⟨hb, rfl⟩, .refl _ _⟩

theorem SameTables.leaves (h : SameTables roots s s') : SameLeaves roots s s' :=
  ⟨fun r hr => leaf_same fun q b hq hb => (h.table r hr q b hq hb).2, h.data⟩

theorem SameTables.trans {s'' : Mem} (h : SameTables roots s s') (h' : SameTables roots s' s'') :
    SameTables roots s s'' := by
  refine ⟨fun r hr q b hq hb => ?_, (h.leaves.trans h'.leaves).data⟩
  obtain ⟨hb', hm⟩ := h.table r hr q b hq hb
  obtain ⟨hb'', hm'⟩ := h'.table r hr q b hq hb'
  exact ⟨hb'', hm'.trans hm⟩

/-- Whatever is written to a page outside of the page tables. -/
theorem Pages.scribble (h : Pages K roots pend s) (hb : b ∈ pend ∨ b ∈ s.freelist) (page : Fin 512 → Pte)
    (bytes : ℕ → UInt8) :
    Pages K roots pend { s with mem := Function.update s.mem b page, data := Function.update s.data b bytes } ∧
      SameTables roots s { s with mem := Function.update s.mem b page, data := Function.update s.data b bytes } := by
  have hsame : ∀ r ∈ roots, ∀ q b', q.length ≤ 2 → follow (nextOf s.mem) r q = some b' →
      Function.update s.mem b page b' = s.mem b' := by
    intro r hr q b' hq hb'
    obtain ⟨-, hf, hp⟩ := h.table hr hq hb'
    refine Function.update_of_ne ?_ _ _
    rintro rfl
    exact hb.elim hp hf
  refine ⟨⟨?_, h.nodup, h.free, fun r hr => shape_same (hsame r hr) (h.shape r hr)⟩,
    fun r hr q b' hq hb' => ?_, fun r hr v hv e he => ?_⟩
  rotate_left
  · exact ⟨(follow_same (hsame r hr) (by omega)).trans hb', hsame r hr q b' hq hb'⟩
  · obtain ⟨-, hf, hp⟩ := h.user hr hv he
    refine Function.update_of_ne ?_ _ _
    rintro rfl
    exact hb.elim hp hf
  rw [nextOf_update, val_scribble counts_closed h.owned (hb.imp_right fun hf => by simpa using hf)]
  exact h.owned

theorem decide_notMem_cons {l : List ℕ} {a : ℕ} :
    (fun x => decide (x ∉ a :: l)) = Function.update (fun x => decide (x ∉ l)) a false := by
  funext x
  by_cases hx : x = a
  · simp [hx]
  · simp [hx]

theorem decide_notMem_tail {l : List ℕ} {a : ℕ} (h : a ∉ l) :
    (fun x => decide (x ∉ l)) = Function.update (fun x => decide (x ∉ a :: l)) a true := by
  funext x
  by_cases hx : x = a
  · simp [hx, h]
  · simp [hx]

section Write

variable {pte : Pte} (h : Pages K roots pend s) (hr : r ∈ roots) (hq : q.length ≤ 2) (hb : follow (nextOf s.mem) r q = some b)
  (hs' : s' = { s with mem := Function.update s.mem b (Function.update (s.mem b) i pte) })

include h hr hq hb hs'

theorem Pages.write_follow {r' : ℕ} {q' : List (Fin 512)} (hr' : r' ∈ roots) (hq' : q'.length ≤ 2)
    (hout : ¬ (r' = r ∧ ∃ rest, q' = q ++ i :: rest)) : follow (nextOf s'.mem) r' q' = follow (nextOf s.mem) r' q' := by
  rw [hs', nextOf_entry]
  exact follow_write counts_closed h.owned hr hb (.inl hq) hr' (.inl hq') hout

theorem Pages.write_mem {r' b' : ℕ} {q' : List (Fin 512)} {j : Fin 512} (hr' : r' ∈ roots) (hq' : q'.length ≤ 2)
    (hb' : follow (nextOf s.mem) r' q' = some b') (hne : ¬ (r' = r ∧ q' = q ∧ j = i)) : s'.mem b' j = s.mem b' j := by
  subst hs'
  by_cases hbb : b' = b
  · subst hbb
    have hplace := h.owned.inj (val_some.mpr ⟨⟨hr', .inl hq'⟩, hb'⟩) (val_some.mpr ⟨⟨hr, .inl hq⟩, hb⟩)
    obtain ⟨rfl, rfl⟩ := Prod.mk.inj hplace
    have hj : j ≠ i := fun hj => hne ⟨rfl, rfl, hj⟩
    simp [hj]
  · simp [Function.update_of_ne hbb]

/-- Writing an entry changes no mapping but those behind it. -/
theorem Pages.write_leaf {r' : ℕ} (hr' : r' ∈ roots) (hout : ¬ (r' = r ∧ ∃ rest, vpath vpn = q ++ i :: rest)) :
    leaf s'.mem r' vpn = leaf s.mem r' vpn := by
  have hf : follow (nextOf s'.mem) r' [vx 2 vpn, vx 1 vpn] = follow (nextOf s.mem) r' [vx 2 vpn, vx 1 vpn] := by
    refine h.write_follow hr hq hb hs' hr' (by simp) ?_
    rintro ⟨hrr, rest, hrest⟩
    refine hout ⟨hrr, rest ++ [vx 0 vpn], ?_⟩
    rw [← List.cons_append, ← List.append_assoc, ← hrest]
    rfl
  unfold leaf slotAt
  rw [hf]
  split_ifs with hv
  · cases hb' : follow (nextOf s.mem) r' [vx 2 vpn, vx 1 vpn] with
    | none => rfl
    | some b' =>
      have hm : s'.mem b' (vx 0 vpn) = s.mem b' (vx 0 vpn) := by
        refine h.write_mem hr hq hb hs' hr' (by simp) hb' ?_
        rintro ⟨hrr, rfl, hi⟩
        exact hout ⟨hrr, [], by rw [← hi]; rfl⟩
      simp [hm]
  · rfl

theorem Pages.write_shape (hshape : pte.v = true → (pte.perm.leaf = true ↔ q.length = 2))
    (hempty : q.length < 2 → pte.v = true → pte.pa ≠ b ∧ ∀ j, (s.mem pte.pa j).v = false)
    (r' : ℕ) (hr' : r' ∈ roots) (q' : List (Fin 512)) (b' : ℕ) (j : Fin 512) (hq' : q'.length ≤ 2)
    (hb' : follow (nextOf s'.mem) r' q' = some b') (hv : (s'.mem b' j).v = true) :
    (s'.mem b' j).perm.leaf = true ↔ q'.length = 2 := by
  have hself : follow (nextOf s'.mem) r q = some b := by
    rw [h.write_follow hr hq hb hs' hr hq, hb]
    rintro ⟨-, rest, hrest⟩
    have := congrArg List.length hrest
    simp at this
  have hentry : s'.mem b i = pte := by simp [hs']
  by_cases hin : r' = r ∧ ∃ rest, q' = q ++ i :: rest
  · -- the entry leads to an empty table
    obtain ⟨rfl, rest, rfl⟩ := hin
    rw [follow_entry hself] at hb'
    obtain ⟨c, hc, hrest⟩ := Option.bind_eq_some_iff.mp hb'
    obtain ⟨hpv, rfl⟩ := nextOf_some.mp hc
    rw [hentry] at hpv hrest
    have hlt : q.length < 2 := by simp at hq'; omega
    obtain ⟨hne, hz⟩ := hempty hlt hpv
    have hz' : ∀ j, (s'.mem pte.pa j).v = false := fun j => by simp [hs', Function.update_of_ne hne, hz j]
    cases rest with
    | nil =>
      cases hrest
      rw [hz' j] at hv
      cases hv
    | cons k rest =>
      simp only [follow, nextOf_none.mpr (hz' k), Option.bind_none] at hrest
      cases hrest
  · rw [h.write_follow hr hq hb hs' hr' hq' hin] at hb'
    by_cases hplace : r' = r ∧ q' = q ∧ j = i
    · obtain ⟨rfl, rfl, rfl⟩ := hplace
      cases hb.symm.trans hb'
      rw [hentry] at hv ⊢
      exact hshape hv
    · rw [h.write_mem hr hq hb hs' hr' hq' hb' hplace] at hv ⊢
      exact h.shape r' hr' q' b' j hq' hb' hv

end Write

/-- `kalloc` hands out a page, filled with something. -/
theorem Pages.alloc {rest : List ℕ} (h : Pages K roots pend s) (hf : s.freelist = c :: rest) (page : Fin 512 → Pte)
    (bytes : ℕ → UInt8) :
    Pages K roots (insert c pend) ⟨rest, Function.update s.mem c page, Function.update s.data c bytes⟩ ∧
      SameTables roots s ⟨rest, Function.update s.mem c page, Function.update s.data c bytes⟩ ∧ c ∈ area K ∧ c ∉ pend := by
  obtain ⟨hp, hsame⟩ := h.scribble (b := c) (.inr (by simp [hf])) page bytes
  have hnd : c ∉ rest ∧ rest.Nodup := List.nodup_cons.mp (hf ▸ h.nodup)
  have harea : c ∈ area K := h.free c (by simp [hf])
  refine ⟨⟨?_, hnd.2, fun b hb => h.free b (by simp [hf, hb]), hp.shape⟩, ⟨hsame.table, hsame.data⟩, harea, fun hc => ?_⟩
  · have ho := hp.owned.alloc harea (by simp [hf])
    dsimp only at ho
    rw [hf, ← decide_notMem_tail hnd.1] at ho
    exact ho
  · have hm := (h.owned.pending hc).2
    simp [hf] at hm

/-- A pending page goes back to the free list. -/
theorem Pages.release (h : Pages K roots pend s) (hc : c ∈ pend) (page : Fin 512 → Pte) (bytes : ℕ → UInt8) :
    Pages K roots (pend \ {c}) ⟨c :: s.freelist, Function.update s.mem c page, Function.update s.data c bytes⟩ ∧
      SameTables roots s ⟨c :: s.freelist, Function.update s.mem c page, Function.update s.data c bytes⟩ := by
  obtain ⟨hp, hsame⟩ := h.scribble (b := c) (.inl hc) page bytes
  obtain ⟨harea, hm⟩ := h.owned.pending hc
  refine ⟨⟨?_, List.nodup_cons.mpr ⟨by simpa using hm, h.nodup⟩, fun b hb => ?_, hp.shape⟩, ⟨hsame.table, hsame.data⟩⟩
  · have ho := hp.owned.release hc
    rw [← decide_notMem_cons] at ho
    exact ho
  · rcases List.mem_cons.mp hb with rfl | hb
    · exact harea
    · exact h.free b hb

/-- Linking an empty table into a page table. -/
theorem Pages.link (h : Pages K roots pend s) (hr : r ∈ roots) (hq : q.length < 2) (hb : follow (nextOf s.mem) r q = some b)
    (hi : (s.mem b i).v = false) (hc : c ∈ pend) (hz : ∀ j, (s.mem c j).v = false)
    (hs' : s' = { s with mem := Function.update s.mem b (Function.update (s.mem b) i ⟨true, .none, c⟩) }) :
    Pages K roots (pend \ {c}) s' ∧ SameLeaves roots s s' ∧ follow (nextOf s'.mem) r (q ++ [i]) = some c := by
  have hcb : c ≠ b := by
    rintro rfl
    exact (h.table hr (by omega) hb).2.2 hc
  have hcount : counts (q ++ [i]) := .inl (by simp; omega)
  have hnext : nextOf s'.mem = Function.update (nextOf s.mem) b (Function.update (nextOf s.mem b) i (some c)) := by
    rw [hs', nextOf_entry]
    rfl
  have hval := val_write counts_closed h.owned (i := i) (v := some c) hr hb hcount
    (fun j rest _ d hd => by rw [nextOf_none.mpr hi] at hd; cases hd)
    (fun j rest _ d hd => by cases hd; exact ⟨hcb, nextOf_none.mpr (hz j)⟩)
  have hnone : val (nextOf s.mem) roots counts (r, q ++ [i]) = none := by
    rw [Option.eq_none_iff_forall_ne_some]
    intro d hd
    have hf := (val_some.mp hd).2
    rw [follow_entry hb, nextOf_none.mpr hi] at hf
    cases hf
  have howned := h.owned.attach hc hnone
  rw [← hval, ← hnext] at howned
  have hfree : s'.freelist = s.freelist := by rw [hs']
  have hself : follow (nextOf s'.mem) r q = some b := by
    rw [h.write_follow hr (by omega) hb hs' hr (by omega), hb]
    rintro ⟨-, rest, hrest⟩
    have := congrArg List.length hrest
    simp at this
  have hlink : follow (nextOf s'.mem) r (q ++ [i]) = some c := by
    rw [follow_entry hself, hnext, Function.update_self, Function.update_self]
    rfl
  refine ⟨⟨by rwa [hfree], by rw [hfree]; exact h.nodup, by rw [hfree]; exact h.free, ?_⟩, ⟨fun r' hr' => ?_, ?_⟩, hlink⟩
  · exact h.write_shape hr (by omega) hb hs' (fun _ => ⟨nofun, fun h2 => absurd h2 (by omega)⟩) fun _ _ => ⟨hcb, hz⟩
  · funext vpn
    by_cases hin : r' = r ∧ ∃ rest, vpath vpn = q ++ i :: rest
    · -- nothing was mapped behind the entry, and nothing is
      obtain ⟨rfl, rest, hrest⟩ := hin
      obtain ⟨j, rest, rfl⟩ : ∃ j l, rest = j :: l := by
        have hlen := congrArg List.length hrest
        refine List.exists_cons_of_ne_nil ?_
        rintro rfl
        simp [vpath] at hlen
        omega
      have hold : follow (nextOf s.mem) r' (vpath vpn) = none := by
        rw [hrest, follow_entry hb, nextOf_none.mpr hi]
        rfl
      have hnew : follow (nextOf s'.mem) r' (vpath vpn) = none := by
        rw [hrest, follow_entry hself, hnext, Function.update_self, Function.update_self]
        simp [follow, Function.update_of_ne hcb, nextOf_none.mpr (hz j)]
      rw [leaf_eq_none hold, leaf_eq_none hnew]
    · exact h.write_leaf hr (by omega) hb hs' hr' hin
  · rw [hs']
    exact .refl _ _

section Leaves

variable {e : Pte} {loc : ℕ × Fin 512} (h : Pages K roots pend s) (hr : r ∈ roots) (hv : vpn < VPAGES)
  (hslot : slotAt s.mem r vpn = some loc)
  (hs' : s' = { s with mem := Function.update s.mem loc.1 (Function.update (s.mem loc.1) loc.2 e) })

include h hr hv hslot hs'

/-- Writing the entry of a page changes the mapping of this page only. -/
theorem Pages.leaf_write : leaf s'.mem r = Function.update (leaf s.mem r) vpn (if e.v then some e else none) ∧
    SameLeaves (roots \ {r}) s s' := by
  obtain ⟨b, hb, rfl⟩ := slotAt_some hslot
  have hbehind : ∀ w, (∃ rest, vpath w = [vx 2 vpn, vx 1 vpn] ++ vx 0 vpn :: rest) → vpath w = vpath vpn := by
    rintro w ⟨rest, hrest⟩
    have hlen := congrArg List.length hrest
    obtain rfl : rest = [] := List.length_eq_zero_iff.mp (by simp [vpath] at hlen; simpa using hlen)
    exact hrest
  have hothers : ∀ r' ∈ roots \ {r}, leaf s'.mem r' = leaf s.mem r' := fun r' hr' => funext fun w =>
    h.write_leaf hr (by simp) hb hs' hr'.1 fun hin => hr'.2 hin.1
  refine ⟨?_, hothers, by rw [hs']; exact .refl _ _⟩
  funext w
  by_cases hw : w = vpn
  · subst hw
    have hslot' : slotAt s'.mem r w = some (b, vx 0 w) := by
      rw [slotAt, h.write_follow hr (by simp) hb hs' hr (by simp), hb]
      · rfl
      · rintro ⟨-, rest, hrest⟩
        have := congrArg List.length hrest
        simp at this
    rw [Function.update_self, leaf_of_slot hv hslot', hs']
    simp
  · rw [Function.update_of_ne hw]
    by_cases hwv : w < VPAGES
    · refine h.write_leaf hr (by simp) hb hs' hr ?_
      rintro ⟨-, hin⟩
      exact hw (vpath_inj hwv hv (hbehind w hin))
    · rw [leaf, leaf, if_neg hwv, if_neg hwv]

omit hv in
theorem Pages.leaf_shape (hshape : e.v = true → e.perm.leaf = true) (r' : ℕ) (hr' : r' ∈ roots) (q' : List (Fin 512))
    (b' : ℕ) (j : Fin 512) (hq' : q'.length ≤ 2) (hb' : follow (nextOf s'.mem) r' q' = some b')
    (hj : (s'.mem b' j).v = true) : (s'.mem b' j).perm.leaf = true ↔ q'.length = 2 := by
  obtain ⟨b, hb, rfl⟩ := slotAt_some hslot
  exact h.write_shape hr (by simp) hb hs' (fun hp => by simp [hshape hp]) (fun hlt => absurd hlt (by simp)) r' hr' q' b' j hq' hb' hj

/-- The trampoline and the trapframe are mapped without becoming part of the page table. -/
theorem Pages.special (hu : UPAGES ≤ vpn) (hshape : e.v = true → e.perm.leaf = true) :
    Pages K roots pend s' := by
  have hsh := h.leaf_shape hr hslot hs' hshape
  obtain ⟨b, hb, rfl⟩ := slotAt_some hslot
  have hfree : s'.freelist = s.freelist := by rw [hs']
  refine ⟨?_, by rw [hfree]; exact h.nodup, by rw [hfree]; exact h.free, hsh⟩
  have hval := val_write_uncounted counts_closed h.owned (i := vx 0 vpn) (v := if e.v then some e.pa else none) hr hb
    (.inl (by simp)) (fun hc => absurd ((counts_vpath hv).mp hc) (by omega))
  rw [hfree, hs', nextOf_entry, hval]
  exact h.owned

omit hv in
/-- The pages after the entry of a user page has been written. -/
theorem Pages.user_val (hu : vpn < UPAGES) : val (nextOf s'.mem) roots counts =
    Function.update (val (nextOf s.mem) roots counts) (r, vpath vpn) (if e.v then some e.pa else none) := by
  obtain ⟨b, hb, rfl⟩ := slotAt_some hslot
  have hlong : ∀ j rest, ¬ counts ([vx 2 vpn, vx 1 vpn] ++ vx 0 vpn :: j :: rest) := by
    rintro j rest (hlen | ⟨w, -, hw⟩)
    · simp at hlen
    · have := congrArg List.length hw
      simp [vpath] at this
  rw [hs', nextOf_entry]
  exact val_write counts_closed h.owned hr hb (.inr ⟨vpn, hu, rfl⟩) (fun j rest hc => absurd hc (hlong j rest))
    fun j rest hc => absurd hc (hlong j rest)

/-- A pending page becomes user memory. -/
theorem Pages.map (hu : vpn < UPAGES) (hold : leaf s.mem r vpn = none) (hp : e.v = true) (hleaf : e.perm.leaf = true)
    (hc : e.pa ∈ pend) : Pages K roots (pend \ {e.pa}) s' := by
  have hval := h.user_val hr hslot hs' hu
  have hnone : val (nextOf s.mem) roots counts (r, vpath vpn) = none := by
    rw [Option.eq_none_iff_forall_ne_some]
    intro d hd
    have hf := (val_some.mp hd).2
    rw [follow_vpath _ _ hv, hold] at hf
    cases hf
  have howned := h.owned.attach hc hnone
  rw [if_pos hp] at hval
  rw [← hval] at howned
  have hfree : s'.freelist = s.freelist := by rw [hs']
  exact ⟨by rwa [hfree], by rw [hfree]; exact h.nodup, by rw [hfree]; exact h.free, h.leaf_shape hr hslot hs' fun _ => hleaf⟩

/-- A page of user memory becomes pending. -/
theorem Pages.unmap (hu : vpn < UPAGES) {old : Pte} (hold : leaf s.mem r vpn = some old) (hp : e.v = false) :
    Pages K roots (insert old.pa pend) s' := by
  have hval := h.user_val hr hslot hs' hu
  have hsome : val (nextOf s.mem) roots counts (r, vpath vpn) = some old.pa :=
    val_some.mpr ⟨⟨hr, .inr ⟨vpn, hu, rfl⟩⟩, by rw [follow_vpath _ _ hv, hold]; rfl⟩
  have howned := h.owned.detach hsome
  rw [if_neg (by simp [hp])] at hval
  rw [← hval] at howned
  have hfree : s'.freelist = s.freelist := by rw [hs']
  exact ⟨by rwa [hfree], by rw [hfree]; exact h.nodup, by rw [hfree]; exact h.free,
    h.leaf_shape hr hslot hs' fun hn => absurd (hp.symm.trans hn) nofun⟩

end Leaves

end Tables

end Xv6.Vm
