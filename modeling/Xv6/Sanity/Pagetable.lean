import Xv6.Sanity.VmOps
import Xv6.Spec.Pagetable

/-! Page tables as trees of pages, and the map they stand for. -/

namespace Xv6.Pagetable

open Wp Vm Forest

section Words

variable {w pa perm : Word}

theorem and_v : w &&& PTE_V ≠ 0 ↔ w.getLsbD 0 = true := by
  have hv : PTE_V = 1#64 := rfl
  rw [hv, BitVec.and_one_eq_setWidth_ofBool_getLsbD]
  cases w.getLsbD 0 <;> decide

theorem toNat_pte (pa : Word) (f : Word) : (PA2PTE pa ||| f).toNat = (pa.toNat / 2 ^ 12) <<< 10 ||| f.toNat := by
  have := pa.isLt
  rw [PA2PTE, BitVec.toNat_or, BitVec.toNat_shiftLeft, BitVec.toNat_ushiftRight, Nat.shiftRight_eq_div_pow,
    Nat.mod_eq_of_lt]
  rw [Nat.shiftLeft_eq]
  omega

theorem pte2pa_pte {f : Word} (hpa : pa % 4096 = 0) (hf : f.toNat < 2 ^ 10) : PTE2PA (PA2PTE pa ||| f) = pa := by
  have hmod : pa.toNat % 4096 = 0 := by
    have := congrArg BitVec.toNat hpa
    simpa using this
  have := pa.isLt
  refine BitVec.eq_of_toNat_eq ?_
  rw [PTE2PA, BitVec.toNat_shiftLeft, BitVec.toNat_ushiftRight, toNat_pte, Nat.shiftRight_or_distrib,
    Nat.shiftLeft_shiftRight, Nat.shiftRight_eq_div_pow, Nat.div_eq_of_lt hf, Nat.or_zero, Nat.shiftLeft_eq]
  omega

theorem flags_pte {f : Word} (hf : f.toNat < 2 ^ 10) : PTE_FLAGS (PA2PTE pa ||| f) = f := by
  refine BitVec.eq_of_toNat_eq ?_
  rw [PTE_FLAGS, BitVec.toNat_and, toNat_pte, show (0x3FF : Word).toNat = 2 ^ 10 - 1 from rfl, Nat.and_two_pow_sub_one_eq_mod,
    Nat.or_mod_two_pow, Nat.shiftLeft_eq, Nat.mul_mod_left, Nat.zero_or, Nat.mod_eq_of_lt hf]

theorem px_eq (level : ℕ) (va : Word) : PX level va = vx level (va.toNat / PGSIZE) := by
  rw [PX, PXMASK, BitVec.toNat_and, BitVec.toNat_ushiftRight, show (0x1FF : Word).toNat = 2 ^ 9 - 1 from rfl,
    Nat.and_two_pow_sub_one_eq_mod, Nat.shiftRight_eq_div_pow, vx, PGSIZE]
  refine Fin.ext ?_
  rw [Fin.val_ofNat, Fin.val_ofNat, Nat.div_div_eq_div_mul, pow_add, show (2:ℕ) ^ 12 = 4096 from rfl]
  omega
variable {va : Word} {v : ℕ}

theorem va_aligned (hva : va.toNat = v * PGSIZE) : va % 4096 = 0 := by
  refine BitVec.eq_of_toNat_eq ?_
  rw [BitVec.toNat_umod, hva]
  exact Nat.mul_mod_left v 4096

end Words

/-- The entries of all pages as records. -/
def decode (mem : ℕ → Fin 512 → Word) : ℕ → Fin 512 → Pte := fun b i => pteOf (mem b i).toNat

/-- The tables reached from entry to entry. -/
def next (s : Mem) : ℕ → Fin 512 → Option ℕ := nextOf (decode s.mem)

/-- The entry for page `v`, if there is a table for it. -/
def slot (s : Mem) (root v : ℕ) : Option (ℕ × Fin 512) := slotAt (decode s.mem) root v

def MAXPAGES : ℕ := MAXVA / PGSIZE

/-- What a valid entry says: the physical address and the flags. -/
def entryOf (w : Word) : Option (Word × Word) := if w &&& PTE_V ≠ 0 then some (PTE2PA w, PTE_FLAGS w) else none

/-- The map that a page table stands for, from page numbers. -/
def mapOf (s : Mem) (root v : ℕ) : Option (Word × Word) :=
  if v < MAXPAGES then (slot s root v).bind fun loc => entryOf (s.mem loc.1 loc.2) else none

/-- The tables below `root` are a tree of distinct pages, and none of them is free. -/
structure Good (s : Mem) (root : ℕ) : Prop where
  tree : Tree (next s) 2 root
  nodup : s.freelist.Nodup
  fresh : ∀ c ∈ s.freelist, ¬ Node (next s) 2 root c
  page : ∀ c ∈ s.freelist, c % PGSIZE = 0 ∧ c < 2 ^ 64

variable {K : Kernel} {s s' : Mem} {root b c v : ℕ} {i : Fin 512} {w va : Word} {q : List (Fin 512)}

section Entries

theorem next_eq : next s b i = if s.mem b i &&& PTE_V ≠ 0 then some (PTE2PA (s.mem b i)).toNat else none := by
  have hv : (pteOf (s.mem b i).toNat).v = (s.mem b i).getLsbD 0 := rfl
  have hpa : (pteOf (s.mem b i).toNat).pa = (PTE2PA (s.mem b i)).toNat := by
    rw [PTE2PA, BitVec.toNat_shiftLeft, BitVec.toNat_ushiftRight]
    rfl
  simp only [next, nextOf, decode, hv, hpa, and_v]

theorem next_none (h : s.mem b i &&& PTE_V = 0) : next s b i = none := by rw [next_eq, if_neg (not_not.mpr h)]

/-- Writing one entry, seen from entry to entry. -/
theorem next_write (h : s' = { s with mem := Function.update s.mem b (Function.update (s.mem b) i w) }) :
    next s' = Function.update (next s) b (Function.update (next s b) i
      (if w &&& PTE_V ≠ 0 then some (PTE2PA w).toNat else none)) := by
  subst h
  funext b' j
  by_cases hb : b' = b
  · subst hb
    rw [Function.update_self, next_eq]
    by_cases hj : j = i
    · subst hj
      simp only [Function.update_self]
    · simp only [Function.update_self, Function.update_of_ne hj, next_eq]
  · rw [Function.update_of_ne hb, next_eq, next_eq]
    simp only [Function.update_of_ne hb]

theorem next_page (h : ∀ b', b' ≠ c → s'.mem b' = s.mem b') (hb : b ≠ c) : next s' b = next s b := by
  funext i
  rw [next_eq, next_eq, h b hb]

theorem slot_some {loc : ℕ × Fin 512} : slot s root v = some loc ↔
    ∃ b, follow (next s) root [vx 2 v, vx 1 v] = some b ∧ loc = (b, vx 0 v) := by
  rw [slot, slotAt, Option.map_eq_some_iff]
  exact exists_congr fun b => and_congr_right fun _ => eq_comm

theorem slot_congr (h : ∀ p : List (Fin 512), p.length ≤ 2 → follow (next s') root p = follow (next s) root p) :
    slot s' root v = slot s root v := congrArg (Option.map fun b => (b, vx 0 v)) (h [vx 2 v, vx 1 v] le_rfl)

theorem mapOf_slot {loc : ℕ × Fin 512} (hv : v < MAXPAGES) (h : slot s root v = some loc) :
    mapOf s root v = entryOf (s.mem loc.1 loc.2) := by
  rw [mapOf, if_pos hv, h]
  rfl

theorem mapOf_noSlot (h : slot s root v = none) : mapOf s root v = none := by
  rw [mapOf, h]
  split_ifs <;> rfl

end Entries

section Writes

/-- The page `c`, which is not a table, is written; the free list may change in it. -/
structure Aside (root c : ℕ) (s s' : Mem) : Prop where
  mem : ∀ b, b ≠ c → s'.mem b = s.mem b
  out : ¬ Node (next s) 2 root c

theorem Aside.follow (h : Aside root c s s') {p : List (Fin 512)} (hp : p.length ≤ 3) :
    follow (next s') root p = follow (next s) root p := by
  refine follow_of_nodes (fun b hb => next_page h.mem ?_) hp
  rintro rfl
  exact h.out hb

theorem Aside.node (h : Aside root c s s') : Node (next s') 2 root b ↔ Node (next s) 2 root b :=
  Node.congr fun _ hp => h.follow (by omega)

theorem Aside.map (h : Aside root c s s') : mapOf s' root = mapOf s root := by
  funext v
  have hslot : slot s' root v = slot s root v := slot_congr fun p hp => h.follow (by omega)
  unfold mapOf
  rw [hslot]
  cases hs : slot s root v with
  | none => rfl
  | some loc =>
    obtain ⟨b, hb, rfl⟩ := slot_some.mp hs
    have hne : b ≠ c := by
      rintro rfl
      exact h.out ⟨_, le_rfl, hb⟩
    simp only [Option.bind_some, h.mem b hne]

theorem Aside.tree (h : Aside root c s s') (ht : Tree (next s) 2 root) : Tree (next s') 2 root :=
  ht.congr fun _ hp => h.follow (by omega)

/-- The entry of page `v` is written. -/
theorem write_slot (h : Good s root) {loc : ℕ × Fin 512} (hv : v < MAXPAGES) (hslot : slot s root v = some loc)
    (hs' : s' = { s with mem := Function.update s.mem loc.1 (Function.update (s.mem loc.1) loc.2 w) }) :
    Good s' root ∧ (∀ c, Node (next s') 2 root c ↔ Node (next s) 2 root c) ∧
      mapOf s' root = Function.update (mapOf s root) v (entryOf w) := by
  obtain ⟨b, hb, rfl⟩ := slot_some.mp hslot
  have hfollow : ∀ p : List (Fin 512), p.length ≤ 2 → follow (next s') root p = follow (next s) root p := fun p hp => by
    rw [next_write hs']
    refine h.tree.follow_write hb le_rfl (by omega) ?_
    rintro ⟨rest, rfl⟩
    simp at hp
  have hnode : ∀ c, Node (next s') 2 root c ↔ Node (next s) 2 root c := fun c => Node.congr hfollow
  refine ⟨⟨h.tree.congr hfollow, ?_, fun c hc => ?_, ?_⟩, hnode, ?_⟩
  · rw [hs']
    exact h.nodup
  · rw [hnode]
    rw [hs'] at hc
    exact h.fresh c hc
  · rw [hs']
    exact h.page
  funext u
  by_cases huv : u = v
  · subst huv
    rw [Function.update_self, mapOf_slot hv (by rw [slot_congr hfollow, hslot]), hs']
    simp only [Function.update_self]
  · rw [Function.update_of_ne huv]
    unfold mapOf
    split_ifs with hu
    · rw [slot_congr hfollow]
      cases hs : slot s root u with
      | none => rfl
      | some loc =>
        obtain ⟨b', hb', rfl⟩ := slot_some.mp hs
        simp only [Option.bind_some, hs']
        by_cases hbb : b' = b
        · subst hbb
          have hpath := h.tree _ _ _ le_rfl le_rfl hb' hb
          have hlt : MAXPAGES < VPAGES := by decide
          have hne : vx 0 u ≠ vx 0 v := fun h0 => huv <| by
            refine vpath_inj (by omega) (by omega) ?_
            obtain ⟨h2, h1, -⟩ : vx 2 u = vx 2 v ∧ vx 1 u = vx 1 v ∧ True := by simpa using hpath
            simp only [vpath, h0, h1, h2]
          simp only [Function.update_self, Function.update_of_ne hne]
        · simp only [Function.update_of_ne hbb]
    · rfl

end Writes

section Walk

theorem entryOf_none : entryOf w = none ↔ w &&& PTE_V = 0 := by
  unfold entryOf
  split_ifs with hv
  · exact ⟨nofun, fun h0 => absurd h0 hv⟩
  · exact ⟨fun _ => not_not.mp hv, fun _ => rfl⟩

@[simp] theorem wp_readPte {loc : ℕ × Fin 512} {Q : Word → Mem → Prop} {E : String → Prop} :
    wp (readPte loc) Q E s ↔ Q (s.mem loc.1 loc.2) s := Iff.rfl

@[simp] theorem wp_setPte {loc : ℕ × Fin 512} {Q : Unit → Mem → Prop} {E : String → Prop} :
    wp (setPte loc w) Q E s ↔ Q () { s with mem := Function.update s.mem loc.1 (Function.update (s.mem loc.1) loc.2 w) } := Iff.rfl

@[simp] theorem wp_memset {pa n : ℕ} {Q : Unit → Mem → Prop} {E : String → Prop} : wp (memset pa n) Q E s ↔
    Q () { s with mem := Function.update s.mem pa fun _ => BitVec.ofNat 64 (0x0101010101010101 * n) } := Iff.rfl

theorem walkLevel_false (b : ℕ) (i : Fin 512) :
    wp (walkLevel b i false) (fun res s' => s' = s ∧ res = next s b i) never s := by
  simp only [walkLevel, wp_bind, wp_readPte, wp_ite, wp_pure, next_eq]
  refine ⟨fun hv => ⟨trivial, (if_pos hv).symm⟩, fun hv => ⟨fun _ => ⟨trivial, (if_neg hv).symm⟩, fun hno => absurd rfl hno⟩⟩

theorem walk_false (root : ℕ) (hva : va.toNat < MAXVA) :
    wp (walk root va false) (fun res s' => s' = s ∧ res = slot s root (va.toNat / PGSIZE)) never s := by
  rw [walk, if_neg (by omega), wp_bind]
  refine wp_mono (walkLevel_false _ _) (fun r1 s1 h1 => ?_) fun _ => id
  obtain ⟨rfl, hr1⟩ := h1
  rw [px_eq] at hr1
  have hslot : slot s1 root (va.toNat / PGSIZE) = ((r1.bind fun b => next s1 b (vx 1 (va.toNat / PGSIZE))).map fun b =>
      (b, vx 0 (va.toNat / PGSIZE))) := by
    rw [hr1, slot, slotAt]
    simp only [follow, next]
    cases nextOf (decode s1.mem) root (vx 2 (va.toNat / PGSIZE)) with
    | none => rfl
    | some b =>
      simp only [Option.bind_some]
      cases nextOf (decode s1.mem) b (vx 1 (va.toNat / PGSIZE)) <;> rfl
  cases r1 with
  | none => exact ⟨rfl, hslot.symm⟩
  | some b =>
    rw [wp_bind]
    refine wp_mono (walkLevel_false _ _) (fun r2 s2 h2 => ?_) fun _ => id
    obtain ⟨rfl, hr2⟩ := h2
    rw [px_eq] at hr2
    rw [Option.bind_some, ← hr2] at hslot
    cases r2 with
    | none => exact ⟨rfl, hslot.symm⟩
    | some b' => exact ⟨rfl, by rw [hslot, px_eq]; rfl⟩

/-- A page for a new table is taken from the free list, cleared and linked. -/
theorem walkLevel_true (h : Good s root) (hq : q.length < 2) (hb : follow (next s) root q = some b) :
    wp (walkLevel b i true) (fun res s' => Good s' root ∧ mapOf s' root = mapOf s root ∧
      ∀ c, res = some c → follow (next s') root (q ++ [i]) = some c) never s := by
  simp only [walkLevel, wp_bind, wp_readPte]
  rw [wp_ite]
  refine ⟨fun hv => ⟨h, rfl, fun c hc => ?_⟩, fun hv => ?_⟩
  · rw [follow_entry hb, next_eq, if_pos hv, ← hc]
    rfl
  have hinone : next s b i = none := next_none (not_not.mp hv)
  simp only [Bool.not_true, Bool.false_eq_true, if_false, kalloc, wp_bind, wp_get]
  cases hf : s.freelist with
  | nil => exact ⟨h, rfl, by simp⟩
  | cons c rest =>
    simp only [wp_bind, wp_set, wp_memset, wp_setPte, wp_pure, Function.update_idem]
    obtain ⟨hal, hlt⟩ := h.page c (by rw [hf]; exact List.mem_cons_self)
    have hout : ¬ Node (next s) 2 root c := h.fresh c (by rw [hf]; exact List.mem_cons_self)
    have hnd : c ∉ rest ∧ rest.Nodup := by
      have := h.nodup
      rwa [hf, List.nodup_cons] at this
    -- first the page is cleared, then it is linked
    set s1 : Mem := ⟨rest, Function.update s.mem c fun _ => BitVec.ofNat 64 (0x0101010101010101 * 0)⟩ with hs1
    have hside : Aside root c s s1 := ⟨fun b' hb' => Function.update_of_ne hb' _ _, hout⟩
    have hzero : ∀ j, s1.mem c j &&& PTE_V = 0 := fun j => by
      rw [hs1]
      simp only [Function.update_self]
      rfl
    have hout1 : ¬ Node (next s1) 2 root c := fun hn => hout (hside.node.mp hn)
    have hb1 : follow (next s1) root q = some b := by rw [hside.follow (by omega), hb]
    have hbc : b ≠ c := by
      rintro rfl
      exact hout ⟨q, hq.le, hb⟩
    have hi1 : next s1 b i = none := by rw [next_page hside.mem hbc, hinone]
    set w : Word := PA2PTE (BitVec.ofNat 64 c) ||| PTE_V with hw
    have hwv : w &&& PTE_V ≠ 0 := by
      rw [and_v, hw, BitVec.getLsbD_or, show PTE_V.getLsbD 0 = true from rfl, Bool.or_true]
    have hwpa : (PTE2PA w).toNat = c := by
      have hmod : (BitVec.ofNat 64 c : Word) % 4096 = 0 := by
        refine BitVec.eq_of_toNat_eq ?_
        rw [BitVec.toNat_umod, BitVec.toNat_ofNat, Nat.mod_eq_of_lt hlt]
        exact hal
      rw [hw, pte2pa_pte hmod (by decide), BitVec.toNat_ofNat, Nat.mod_eq_of_lt hlt]
    set s2 : Mem := ⟨rest, Function.update s1.mem b (Function.update (s1.mem b) i w)⟩ with hs2
    have hnext : next s2 = Function.update (next s1) b (Function.update (next s1 b) i (some c)) := by
      have := @next_write s1 s2 b i w rfl
      rwa [if_pos hwv, hwpa] at this
    have ht1 := hside.tree h.tree
    have hempty : ∀ j, next s1 c j = none := fun j => next_none (hzero j)
    have hlink : ∀ p : List (Fin 512), p.length ≤ 3 → follow (next s2) root p =
        if p = q ++ [i] then some c else follow (next s1) root p := fun p hp => by
      rw [hnext]
      exact ht1.follow_link hb1 hq hi1 hout1 hempty hp
    refine ⟨⟨?_, hnd.2, fun d hd => ?_, fun d hd => h.page d (by rw [hf]; exact List.mem_cons_of_mem _ hd)⟩, ?_, ?_⟩
    · rw [hnext]
      exact ht1.link hb1 hq hi1 hout1 hempty
    · rintro ⟨p, hp, hpd⟩
      rw [hlink p (by omega)] at hpd
      split_ifs at hpd
      · obtain rfl := Option.some.inj hpd
        exact hnd.1 hd
      · exact h.fresh d (by rw [hf]; exact List.mem_cons_of_mem _ hd) (hside.node.mp ⟨p, hp, hpd⟩)
    · rw [← hside.map]
      funext v
      unfold mapOf
      by_cases hv2 : [vx 2 v, vx 1 v] = q ++ [i]
      · -- the pages of the new table: not mapped before, not mapped now
        have hnew : slot s2 root v = some (c, vx 0 v) := slot_some.mpr ⟨c, by rw [hlink _ (by simp), if_pos hv2], rfl⟩
        have hold : slot s1 root v = none := by
          rw [slot, slotAt, hv2]
          change Option.map _ (follow (next s1) root (q ++ [i])) = none
          rw [follow_entry hb1, hi1]
          rfl
        have hmem : s2.mem c (vx 0 v) = s1.mem c (vx 0 v) := by
          rw [hs2]
          simp only [Function.update_of_ne (Ne.symm hbc)]
        rw [hnew, hold]
        simp only [Option.bind_some, Option.bind_none, hmem, entryOf_none.mpr (hzero _)]
      · have hsame : slot s2 root v = slot s1 root v := by
          rw [slot, slot, slotAt, slotAt]
          change Option.map _ (follow (next s2) root _) = Option.map _ (follow (next s1) root _)
          rw [hlink _ (by simp), if_neg hv2]
        rw [hsame]
        cases hs : slot s1 root v with
        | none => rfl
        | some loc =>
          obtain ⟨b', hb', rfl⟩ := slot_some.mp hs
          have hne : b' ≠ b := by
            rintro rfl
            have := congrArg List.length (ht1 _ _ _ le_rfl hq.le hb' hb1)
            simp at this
            omega
          simp only [Option.bind_some, hs2, Function.update_of_ne hne]
    · rintro d hd
      obtain rfl := Option.some.inj hd
      rw [hlink _ (by simp; omega), if_pos rfl]

theorem walk_true (h : Good s root) (hva : va.toNat < MAXVA) :
    wp (walk root va true) (fun res s' => Good s' root ∧ mapOf s' root = mapOf s root ∧
      ∀ loc, res = some loc → slot s' root (va.toNat / PGSIZE) = some loc) never s := by
  rw [walk, if_neg (by omega), wp_bind]
  refine wp_mono (walkLevel_true h (show ([] : List (Fin 512)).length < 2 by decide) rfl) (fun r1 s1 h1 => ?_) fun _ => id
  obtain ⟨hg1, hm1, hr1⟩ := h1
  cases r1 with
  | none => exact ⟨hg1, hm1, nofun⟩
  | some b =>
    rw [wp_bind]
    refine wp_mono (walkLevel_true hg1 (show [PX 2 va].length < 2 by simp) (hr1 b rfl)) (fun r2 s2 h2 => ?_) fun _ => id
    obtain ⟨hg2, hm2, hr2⟩ := h2
    cases r2 with
    | none => exact ⟨hg2, hm2.trans hm1, nofun⟩
    | some b' =>
      refine ⟨hg2, hm2.trans hm1, ?_⟩
      rintro loc hloc
      obtain rfl := Option.some.inj hloc
      have hfollow := hr2 b' rfl
      simp only [px_eq, List.nil_append, List.cons_append] at hfollow ⊢
      exact slot_some.mpr ⟨b', hfollow, rfl⟩

end Walk

section Unmap

theorem page_of_va (hv : v < MAXPAGES) (hva : va.toNat = v * PGSIZE) : va.toNat < MAXVA ∧ va.toNat / PGSIZE = v := by
  have : MAXPAGES * PGSIZE = MAXVA := by decide
  rw [hva, ← this]
  exact ⟨Nat.mul_lt_mul_of_pos_right hv (by decide), Nat.mul_div_cancel _ (by decide)⟩

/-- The pages mapped from `lo` up to `hi` can be freed: they are pages of the allocator, in use, and used once. -/
structure Freeable (K : Kernel) (s : Mem) (root lo hi : ℕ) : Prop where
  owned : ∀ u e, lo ≤ u → u < hi → mapOf s root u = some e →
    K.kend ≤ e.1.toNat ∧ e.1.toNat < PHYSTOP ∧ e.1.toNat ∉ s.freelist ∧ ¬ Node (next s) 2 root e.1.toNat
  apart : ∀ u u' e e', lo ≤ u → u < hi → lo ≤ u' → u' < hi → mapOf s root u = some e → mapOf s root u' = some e' →
    e.1 = e'.1 → u = u'

theorem pte2pa_aligned (w : Word) : (PTE2PA w).toNat % PGSIZE = 0 := by
  rw [PTE2PA, BitVec.toNat_shiftLeft, Nat.shiftLeft_eq, show PGSIZE = 2 ^ 12 from rfl]
  omega

theorem Freeable.tail {hi : ℕ} (h : Freeable K s root v hi) : Freeable K s root (v + 1) hi where
  owned u e hlo hhi := h.owned u e (by omega) hhi
  apart u u' e e' hlo hhi hlo' hhi' := h.apart u u' e e' (by omega) hhi (by omega) hhi'

/-- The page is freed and filled; the tables do not notice. -/
theorem kfree_aside {pa : ℕ} (h : Good s root) (hal : pa % PGSIZE = 0) (hlo : K.kend ≤ pa) (hhi : pa < PHYSTOP)
    (hfree : pa ∉ s.freelist) (hnode : ¬ Node (next s) 2 root pa) :
    wp (kfree K pa) (fun _ s' => Good s' root ∧ Aside root pa s s' ∧ s'.freelist = pa :: s.freelist) never s := by
  rw [kfree, if_neg (by omega), wp_bind, wp_memset]
  have hside : Aside root pa s { s with mem := Function.update s.mem pa fun _ => BitVec.ofNat 64 (0x0101010101010101 * 1) } :=
    ⟨fun b hb => Function.update_of_ne hb _ _, hnode⟩
  rw [wp_modify]
  refine ⟨⟨hside.tree h.tree, List.nodup_cons.mpr ⟨hfree, h.nodup⟩, ?_, ?_⟩, ⟨hside.mem, hnode⟩, rfl⟩
  · intro c hc hn
    have hn' : Node (next s) 2 root c := hside.node.mp hn
    rcases List.mem_cons.mp hc with rfl | hc
    · exact hnode hn'
    · exact h.fresh c hc hn'
  · intro c hc
    rcases List.mem_cons.mp hc with rfl | hc
    · exact ⟨hal, hhi.trans (by decide)⟩
    · exact h.page c hc

theorem unmapPage_spec {doFree : Bool} {hi : ℕ} (h : Good s root) (hv : v < MAXPAGES) (hhi : v < hi)
    (hva : va.toNat = v * PGSIZE) (hf : doFree = true → Freeable K s root v hi) :
    wp (unmapPage K root va doFree) (fun _ s' => Good s' root ∧
      mapOf s' root = Function.update (mapOf s root) v none ∧
      (doFree = true → Freeable K s' root (v + 1) hi)) never s := by
  obtain ⟨hlt, hpage⟩ := page_of_va hv hva
  -- nothing to remove: the map has no entry there
  have hnone : mapOf s root v = none → Good s root ∧ mapOf s root = Function.update (mapOf s root) v none ∧
      (doFree = true → Freeable K s root (v + 1) hi) := fun hm =>
    ⟨h, (Function.update_eq_self_iff.mpr hm.symm).symm, fun hd => (hf hd).tail⟩
  rw [unmapPage, wp_bind]
  refine wp_mono (walk_false root hlt) (fun res s1 h1 => ?_) fun _ => id
  obtain ⟨rfl, hres⟩ := h1
  rw [hpage] at hres
  cases res with
  | none => exact hnone (mapOf_noSlot hres.symm)
  | some loc =>
    have hslot : slot s1 root v = some loc := hres.symm
    have hentry := mapOf_slot hv hslot
    simp only [wp_bind, wp_readPte]
    rw [wp_ite]
    refine ⟨fun hvalid => ?_, fun hinv => hnone (by rw [hentry, entryOf_none.mpr (not_not.mp hinv)])⟩
    rw [entryOf, if_pos hvalid] at hentry
    have hzero : entryOf 0 = none := entryOf_none.mpr rfl
    cases doFree with
    | false =>
      obtain ⟨hg, -, hm⟩ := @write_slot _ _ root v 0 h loc hv hslot rfl
      exact ⟨hg, by rw [hm, hzero], by simp⟩
    | true =>
      have hfree := hf rfl
      obtain ⟨hlo, hpa, hnot, hnode⟩ := hfree.owned v _ le_rfl hhi hentry
      rw [if_pos rfl, wp_bind]
      refine wp_mono (kfree_aside h (pte2pa_aligned _) hlo hpa hnot hnode) (fun _ s2 h2 => ?_) fun _ => id
      obtain ⟨hg2, hside, hlist⟩ := h2
      have hslot2 : slot s2 root v = some loc := by
        rw [← hslot]
        exact slot_congr fun p hp => hside.follow (by omega)
      obtain ⟨hg, hnodes, hm⟩ := @write_slot _ _ root v 0 hg2 loc hv hslot2 rfl
      rw [hzero, hside.map] at hm
      refine ⟨hg, hm, fun _ => ⟨fun u e hlo' hhi' he => ?_, fun u u' e e' hlo' hhi' hlo'' hhi'' he he' => ?_⟩⟩
      · rw [hm, Function.update_of_ne (by omega)] at he
        obtain ⟨h1, h2, h3, h4⟩ := hfree.owned u e (by omega) hhi' he
        refine ⟨h1, h2, fun hmem => ?_, fun hn => h4 (hside.node.mp ((hnodes _).mp hn))⟩
        rcases List.mem_cons.mp (hlist ▸ hmem) with heq | hmem
        · have := hfree.apart u v e _ (by omega) hhi' le_rfl hhi he hentry (BitVec.eq_of_toNat_eq heq)
          omega
        · exact h3 hmem
      · rw [hm, Function.update_of_ne (by omega)] at he he'
        exact hfree.apart u u' e e' (by omega) hhi' (by omega) hhi'' he he'

/-- The map without the pages from `lo` up to `hi`. -/
def without (m : ℕ → Option (Word × Word)) (lo hi : ℕ) : ℕ → Option (Word × Word) :=
  fun u => if lo ≤ u ∧ u < hi then none else m u

theorem without_succ (m : ℕ → Option (Word × Word)) (lo k : ℕ) :
    Function.update (without m lo (lo + k)) (lo + k) none = without m lo (lo + (k + 1)) := by
  funext u
  by_cases hu : u = lo + k
  · subst hu
    rw [Function.update_self, without, if_pos (by omega)]
  · rw [Function.update_of_ne hu, without, without]
    exact if_congr (by omega) rfl rfl

theorem uvmunmap_spec {doFree : Bool} {n : ℕ} (h : Good s root) (hn : v + n ≤ MAXPAGES) (hva : va.toNat = v * PGSIZE)
    (hf : doFree = true → Freeable K s root v (v + n)) :
    wp (uvmunmap K root va n doFree) (fun _ s' => Good s' root ∧
      mapOf s' root = without (mapOf s root) v (v + n)) never s := by
  rw [uvmunmap, if_neg (not_not.mpr (va_aligned hva))]
  -- after `k` rounds the first `k` pages are gone, and the rest can still be freed
  refine wp_mono (wp_repeatFrom (fun k s' => Good s' root ∧ mapOf s' root = without (mapOf s root) v (v + k) ∧
    (doFree = true → Freeable K s' root (v + k) (v + n))) ⟨h, ?_, hf⟩ fun k s' _ hk hI => ?_)
    (fun _ s' hs' => ⟨hs'.1, by rw [hs'.2.1, Nat.zero_add]⟩) fun _ => id
  · funext u
    rw [without, if_neg (by omega)]
  obtain ⟨hg, hm, hfr⟩ := hI
  have haddr : (va + BitVec.ofNat 64 (k * PGSIZE)).toNat = (v + k) * PGSIZE := by
    have hmax : MAXPAGES * PGSIZE < 2 ^ 64 := by decide
    have hle : (v + k) * PGSIZE ≤ MAXPAGES * PGSIZE := Nat.mul_le_mul_right _ (by omega)
    rw [Nat.add_mul] at hle ⊢
    rw [BitVec.toNat_add, BitVec.toNat_ofNat, hva, Nat.mod_eq_of_lt (by omega), Nat.mod_eq_of_lt (by omega)]
  refine wp_mono (unmapPage_spec hg (by omega) (by omega) haddr hfr) (fun _ s2 h2 => ?_) fun _ => id
  exact ⟨h2.1, by rw [h2.2.1, hm, without_succ], h2.2.2⟩

end Unmap

section Lookups

theorem walkaddr_spec (root : ℕ) (va : Word) : wp (walkaddr root va) (fun pa s' => s' = s ∧
    pa = (match mapOf s root (va.toNat / PGSIZE) with
      | some (pa, flags) => if flags &&& PTE_U ≠ 0 then pa else 0
      | none => 0)) never s := by
  have hmul : MAXVA = MAXPAGES * PGSIZE := by decide
  rw [walkaddr, wp_ite]
  refine ⟨fun hge => ⟨rfl, ?_⟩, fun hlt => ?_⟩
  · have hpage : ¬ va.toNat / PGSIZE < MAXPAGES := by
      rw [Nat.div_lt_iff_lt_mul (by decide), ← hmul]
      omega
    rw [mapOf, if_neg hpage]
  have hpage : va.toNat / PGSIZE < MAXPAGES := by
    rw [Nat.div_lt_iff_lt_mul (by decide), ← hmul]
    omega
  rw [wp_bind]
  refine wp_mono (walk_false root (by omega)) (fun res s1 h1 => ?_) fun _ => id
  obtain ⟨rfl, hres⟩ := h1
  cases res with
  | none => exact ⟨rfl, by rw [mapOf_noSlot hres.symm]⟩
  | some loc =>
    rw [mapOf_slot hpage hres.symm, wp_bind, wp_readPte]
    rw [wp_ite]
    refine ⟨fun hv => ⟨rfl, by rw [entryOf_none.mpr hv]⟩, fun hv => ?_⟩
    rw [entryOf, if_pos hv, wp_ite]
    have hflags : PTE_FLAGS (s1.mem loc.1 loc.2) &&& PTE_U = s1.mem loc.1 loc.2 &&& PTE_U := by
      rw [PTE_FLAGS, BitVec.and_assoc]
      rfl
    dsimp only
    rw [hflags]
    exact ⟨fun hu => ⟨rfl, (if_neg (not_not.mpr hu)).symm⟩, fun hu => ⟨rfl, (if_pos hu).symm⟩⟩

theorem mappages_spec {pa perm : Word} (h : Good s root) (hv : v < MAXPAGES) (hva : va.toNat = v * PGSIZE)
    (hunmapped : mapOf s root v = none) (hpa : pa % 4096 = 0) (hperm : perm.toNat < 2 ^ 10) :
    wp (mappages root va 4096 pa perm) (fun ok s' => Good s' root ∧ mapOf s' root =
      if ok then Function.update (mapOf s root) v (some (pa, perm ||| PTE_V)) else mapOf s root) never s := by
  obtain ⟨hlt, hpage⟩ := page_of_va hv hva
  rw [mappages, if_neg (not_not.mpr (va_aligned hva)), if_neg (by decide), if_neg (by decide)]
  change wp (mapFrom root perm 1 va pa) _ _ _
  rw [mapFrom, wp_bind]
  refine wp_mono (walk_true h hlt) (fun res s1 h1 => ?_) fun _ => id
  obtain ⟨hg1, hm1, hloc⟩ := h1
  cases res with
  | none => exact ⟨hg1, hm1⟩
  | some loc =>
    have hslot : slot s1 root v = some loc := hpage ▸ hloc loc rfl
    have hfree : s1.mem loc.1 loc.2 &&& PTE_V = 0 := by
      rw [← entryOf_none, ← mapOf_slot hv hslot, hm1, hunmapped]
    rw [wp_bind, wp_readPte, if_neg (not_not.mpr hfree), wp_bind, wp_setPte]
    obtain ⟨hg, -, hm⟩ := @write_slot _ _ root v (PA2PTE pa ||| perm ||| PTE_V) hg1 loc hv hslot rfl
    have hflags : (perm ||| PTE_V).toNat < 2 ^ 10 := by
      rw [BitVec.toNat_or]
      exact Nat.or_lt_two_pow hperm (by decide)
    have hvalid : (PA2PTE pa ||| perm ||| PTE_V) &&& PTE_V ≠ 0 := by
      rw [and_v, BitVec.getLsbD_or, show PTE_V.getLsbD 0 = true from rfl, Bool.or_true]
    have hentry : entryOf (PA2PTE pa ||| perm ||| PTE_V) = some (pa, perm ||| PTE_V) := by
      rw [entryOf, if_pos hvalid, BitVec.or_assoc, pte2pa_pte hpa hflags, flags_pte hflags]
    exact ⟨hg, by rw [hm, hentry, hm1]; rfl⟩

end Lookups

end Xv6.Pagetable
