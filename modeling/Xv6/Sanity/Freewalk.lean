import Xv6.Sanity.VmOps

/-! `freewalk` gives back all tables of a page table that maps nothing. -/

namespace Xv6.Vm

open Wp Forest

variable {K : Kernel} {roots pend : Set ℕ} {s s' : Mem} {r : ℕ}

/-- The tables of `levels` levels from `r` down. -/
def tables (mem : ℕ → Fin 512 → Pte) (levels r : ℕ) : Set ℕ := {b | ∃ q, q.length < levels ∧ follow (nextOf mem) r q = some b}

/-- A tree of tables that is in no page table any more: its pages are pending, each is at one place, and there is nothing
below the last level. -/
structure Loose (pend : Set ℕ) (s : Mem) (levels r : ℕ) : Prop where
  pending : tables s.mem levels r ⊆ pend
  inj : ∀ q q' b, q.length < levels → q'.length < levels → follow (nextOf s.mem) r q = some b →
    follow (nextOf s.mem) r q' = some b → q = q'
  bottom : ∀ q, q.length = levels → follow (nextOf s.mem) r q = none
  inner : ∀ q b i, q.length < levels → follow (nextOf s.mem) r q = some b → (s.mem b i).v = true →
    (s.mem b i).perm.leaf = false

section Loop

variable {levels : ℕ} (hl : Loose pend s (levels + 1) r)

/-- The tables below the first `k` entries of `r`. -/
def below (mem : ℕ → Fin 512 → Pte) (levels r k : ℕ) : Set ℕ :=
  {b | ∃ j : Fin 512, j.val < k ∧ ∃ c, nextOf mem r j = some c ∧ b ∈ tables mem levels c}

theorem tables_child {mem : ℕ → Fin 512 → Pte} {i : Fin 512} {c b : ℕ} (hc : nextOf mem r i = some c) (hb : b ∈ tables mem levels c) :
    ∃ q, q.length < levels ∧ follow (nextOf mem) r (i :: q) = some b := by
  obtain ⟨q, hq, hf⟩ := hb
  refine ⟨q, hq, ?_⟩
  simp only [follow, hc]
  exact hf

include hl

theorem Loose.root_notMem_below (k : ℕ) : r ∉ below s.mem levels r k := by
  rintro ⟨j, -, c, hc, hb⟩
  obtain ⟨q, hq, hf⟩ := tables_child hc hb
  have := hl.inj [] (j :: q) r (by simp) (by simpa using hq) rfl hf
  cases this

theorem Loose.child_notMem_below {i : Fin 512} {c b k : ℕ} (hc : nextOf s.mem r i = some c) (hb : b ∈ tables s.mem levels c)
    (hk : k ≤ i.val) : b ∉ below s.mem levels r k ∧ b ≠ r := by
  obtain ⟨q, hq, hf⟩ := tables_child hc hb
  refine ⟨?_, ?_⟩
  · rintro ⟨j, hj, d, hd, hb'⟩
    obtain ⟨q', hq', hf'⟩ := tables_child hd hb'
    have hp := hl.inj (i :: q) (j :: q') b (by simpa using hq) (by simpa using hq') hf hf'
    have hij : i = j := (List.cons.inj hp).1
    omega
  · rintro rfl
    have := hl.inj [] (i :: q) _ (by simp) (by simpa using hq) rfl hf
    cases this

/-- What is below an entry that the loop has not come to. -/
theorem Loose.child {t : Mem} {i : Fin 512} {c : ℕ} (hc : nextOf s.mem r i = some c)
    (hmem : ∀ b, b ∉ below s.mem levels r i.val → b ≠ r → t.mem b = s.mem b) :
    Loose (pend \ below s.mem levels r i.val) t levels c ∧ tables t.mem levels c = tables s.mem levels c := by
  have htab : ∀ q b, q.length < levels → follow (nextOf s.mem) c q = some b → t.mem b = s.mem b := by
    intro q b hq hb
    obtain ⟨h1, h2⟩ := hl.child_notMem_below hc ⟨q, hq, hb⟩ le_rfl
    exact hmem b h1 h2
  have hsame : ∀ q, q.length ≤ levels → follow (nextOf t.mem) c q = follow (nextOf s.mem) c q := by
    intro q hq
    refine follow_congr fun q' j rest b hpath hb => ?_
    unfold nextOf
    rw [htab q' b (by rw [hpath, List.length_append, List.length_cons] at hq; omega) hb]
  have hcons : ∀ q, follow (nextOf s.mem) r (i :: q) = follow (nextOf s.mem) c q := fun q => by
    simp only [follow, hc, Option.bind_some]
  have htables : tables t.mem levels c = tables s.mem levels c := by
    ext b
    constructor
    · rintro ⟨q, hq, hf⟩
      exact ⟨q, hq, (hsame q hq.le).symm.trans hf⟩
    · rintro ⟨q, hq, hf⟩
      exact ⟨q, hq, (hsame q hq.le).trans hf⟩
  refine ⟨⟨?_, ?_, ?_, ?_⟩, htables⟩
  · rw [htables]
    rintro b hb
    obtain ⟨q, hq, hf⟩ := tables_child hc hb
    exact ⟨hl.pending ⟨i :: q, by simpa using hq, hf⟩, (hl.child_notMem_below hc hb le_rfl).1⟩
  · intro q q' b hq hq' hf hf'
    rw [hsame q hq.le, ← hcons] at hf
    rw [hsame q' hq'.le, ← hcons] at hf'
    exact (List.cons.inj (hl.inj (i :: q) (i :: q') b (by simpa using hq) (by simpa using hq') hf hf')).2
  · intro q hq
    rw [hsame q hq.le, ← hcons]
    exact hl.bottom (i :: q) (by simpa using hq)
  · intro q b j hq hf hv
    rw [hsame q hq.le] at hf
    rw [htab q b hq hf] at hv ⊢
    rw [← hcons] at hf
    exact hl.inner (i :: q) b j (by simpa using hq) hf hv

end Loop

theorem below_succ (mem : ℕ → Fin 512 → Pte) (levels r : ℕ) (i : Fin 512) :
    below mem levels r (i.val + 1) = below mem levels r i.val ∪ {b | ∃ c, nextOf mem r i = some c ∧ b ∈ tables mem levels c} := by
  ext b
  constructor
  · rintro ⟨j, hj, hb⟩
    by_cases hij : j = i
    · subst hij
      exact .inr hb
    · exact .inl ⟨j, by omega, hb⟩
  · rintro (⟨j, hj, hb⟩ | hb)
    · exact ⟨j, by omega, hb⟩
    · exact ⟨i, by omega, hb⟩

theorem tables_succ (mem : ℕ → Fin 512 → Pte) (levels r : ℕ) : tables mem (levels + 1) r = insert r (below mem levels r 512) := by
  ext b
  constructor
  · rintro ⟨q, hq, hf⟩
    cases q with
    | nil => exact .inl (Option.some.inj hf).symm
    | cons i q =>
      simp only [follow] at hf
      obtain ⟨c, hc, hb⟩ := Option.bind_eq_some_iff.mp hf
      exact .inr ⟨i, i.isLt, c, hc, q, by simpa using hq, hb⟩
  · rintro (rfl | ⟨i, -, c, hc, hb⟩)
    · exact ⟨[], by simp, rfl⟩
    · obtain ⟨q, hq, hf⟩ := tables_child hc hb
      exact ⟨i :: q, by simpa using hq, hf⟩

theorem freewalk_spec (levels : ℕ) (h : Pages K roots pend s) (hl : Loose pend s levels r) (hpos : 0 < levels) :
    wp (freewalk K levels r) (fun _ s' => Pages K roots (pend \ tables s.mem levels r) s' ∧ SameTables roots s s' ∧
      ∀ b ∉ tables s.mem levels r, s'.mem b = s.mem b) never s := by
  induction levels generalizing pend s r with
  | zero => omega
  | succ levels ih =>
    simp only [freewalk, wp_bind]
    have hloop := wp_repeatFrom (E := never) (n := 512) (i := 0) (s := s) (f := fun i => do
        let loc := (r, Fin.ofNat 512 i)
        let pte ← readPte loc
        if pte.v && !pte.perm.leaf then
          freewalk K levels pte.pa
          setPte loc (pteOf 0)
        else if pte.v then throw "freewalk: leaf")
      (fun k t => Pages K roots (pend \ below s.mem levels r k) t ∧ SameTables roots s t ∧
        (∀ b, b ∉ below s.mem levels r k → b ≠ r → t.mem b = s.mem b) ∧ ∀ j : Fin 512, k ≤ j.val → t.mem r j = s.mem r j)
      ⟨by simpa [below] using h, .refl _ _, fun _ _ _ => rfl, fun _ _ => rfl⟩ fun k t _ hk hI => ?_
    · refine wp_imp hloop fun _ t ht => ?_
      obtain ⟨ht, hsame, hmem, -⟩ := ht
      have hrp : r ∈ pend \ below s.mem levels r 512 :=
        ⟨hl.pending ⟨[], by simp, rfl⟩, hl.root_notMem_below 512⟩
      refine wp_imp (kfree_spec ht hrp) fun _ u hu => ?_
      obtain ⟨hu, hsame', rfl⟩ := hu
      have hset : pend \ tables s.mem (levels + 1) r = (pend \ below s.mem levels r 512) \ {r} := by
        rw [tables_succ]
        ext b
        simp only [Set.mem_sdiff, Set.mem_insert_iff, Set.mem_singleton_iff]
        tauto
      rw [hset]
      refine ⟨hu, hsame.trans hsame', fun b hb => ?_⟩
      rw [tables_succ, Set.mem_insert_iff, not_or] at hb
      dsimp only
      rw [Function.update_of_ne hb.1]
      exact hmem b hb.2 hb.1
    · obtain ⟨ht, hsame, hmem, hrow⟩ := hI
      obtain ⟨i, rfl⟩ : ∃ i : Fin 512, k = i.val := ⟨⟨k, by omega⟩, rfl⟩
      have hi : Fin.ofNat 512 i.val = i := by simp
      simp only [hi, wp_bind, wp_readPte, hrow i le_rfl]
      have hnext := below_succ s.mem levels r i
      cases hv : (s.mem r i).v with
      | false =>
        have hnone : below s.mem levels r (i.val + 1) = below s.mem levels r i.val := by
          rw [hnext]
          simp [nextOf_none.mpr hv]
        simp only [Bool.false_and, Bool.false_eq_true, if_false, wp_pure, hnone]
        exact ⟨ht, hsame, hmem, fun j hj => hrow j (by omega)⟩
      | true =>
        have hc : nextOf s.mem r i = some (s.mem r i).pa := nextOf_some.mpr ⟨hv, rfl⟩
        have hinner := hl.inner [] r i (by simp) rfl hv
        have hlev : 0 < levels := by
          by_contra hz
          obtain rfl : levels = 0 := by omega
          have hbot := hl.bottom [i] rfl
          simp [follow, hc] at hbot
        obtain ⟨hchild, htabs⟩ := hl.child hc hmem
        simp only [hinner, Bool.not_false, Bool.and_self, if_true, wp_bind, wp_setPte]
        refine wp_imp (ih ht hchild hlev) fun _ u hu => ?_
        obtain ⟨hu, hsame', hmem'⟩ := hu
        rw [htabs] at hu hmem'
        have hsucc : below s.mem levels r (i.val + 1) = below s.mem levels r i.val ∪ tables s.mem levels (s.mem r i).pa := by
          rw [hnext, hc]
          simp
        have hset : (pend \ below s.mem levels r i.val) \ tables s.mem levels (s.mem r i).pa = pend \ below s.mem levels r (i.val + 1) := by
          rw [hsucc, Set.sdiff_sdiff]
        rw [hset] at hu
        have hrp : r ∈ pend \ below s.mem levels r (i.val + 1) :=
          ⟨hl.pending ⟨[], by simp, rfl⟩, hl.root_notMem_below _⟩
        have hrt : r ∉ tables s.mem levels (s.mem r i).pa := fun hin => (hl.child_notMem_below hc hin le_rfl).2 rfl
        obtain ⟨hw, hsame''⟩ := hu.scribble (b := r) (.inl hrp) (Function.update (u.mem r) i (pteOf 0)) (u.data r)
        rw [Function.update_eq_self] at hw hsame''
        refine ⟨hw, (hsame.trans hsame').trans hsame'', fun b hb hbr => ?_, fun j hj => ?_⟩
        · rw [hsucc, Set.mem_union, not_or] at hb
          rw [Function.update_of_ne hbr, hmem' b hb.2, hmem b hb.1 hbr]
        · have hji : j ≠ i := by
            rintro rfl
            omega
          rw [Function.update_self, Function.update_of_ne hji, hmem' r hrt, hrow j (by omega)]

/-- A page table that maps nothing is taken out of the forest. -/
theorem Pages.uproot (h : Pages K roots pend s) (hr : r ∈ roots) (hnone : ∀ vpn, leaf s.mem r vpn = none) :
    Pages K (roots \ {r}) (pend ∪ tables s.mem 3 r) s ∧ Loose (pend ∪ tables s.mem 3 r) s 3 r := by
  have hbottom : ∀ q : List (Fin 512), q.length = 3 → follow (nextOf s.mem) r q = none := by
    intro q hq
    obtain ⟨i, j, k, rfl⟩ := List.length_eq_three.mp hq
    obtain ⟨vpn, hv, hpath⟩ := exists_vpath i j k
    rw [← hpath, follow_vpath _ _ hv, hnone vpn]
    rfl
  have hset : {b | ∃ path, counts path ∧ follow (nextOf s.mem) r path = some b} = tables s.mem 3 r := by
    ext b
    constructor
    · rintro ⟨path, hc | ⟨vpn, hv, rfl⟩, hf⟩
      · exact ⟨path, by omega, hf⟩
      · rw [hbottom _ rfl] at hf
        cases hf
    · rintro ⟨q, hq, hf⟩
      exact ⟨q, .inl (by omega), hf⟩
  refine ⟨⟨?_, h.nodup, h.free, fun r' hr' => h.shape r' hr'.1⟩, ⟨Set.subset_union_right, ?_, hbottom, ?_⟩⟩
  · rw [← hset]
    exact owned_uproot h.owned hr
  · intro q q' b hq hq' hf hf'
    have hplace := h.owned.inj (val_some.mpr ⟨⟨hr, .inl (by omega)⟩, hf⟩) (val_some.mpr ⟨⟨hr, .inl (by omega)⟩, hf'⟩)
    exact (Prod.mk.inj hplace).2
  · intro q b i hq hf hv
    have hne : q.length ≠ 2 := fun h2 => by
      have hb := hbottom (q ++ [i]) (by simp [h2])
      rw [follow_entry hf, nextOf_some.mpr ⟨hv, rfl⟩] at hb
      cases hb
    have hsh := h.shape r hr q b i (by omega) hf hv
    rw [← Bool.not_eq_true, hsh]
    exact hne

theorem freewalk_empty (h : Pages K roots pend s) (hr : r ∈ roots) (hnone : ∀ vpn, leaf s.mem r vpn = none) :
    wp (freewalk K 3 r) (fun _ s' => Pages K (roots \ {r}) pend s' ∧ SameLeaves (roots \ {r}) s s') never s := by
  obtain ⟨hp, hl⟩ := h.uproot hr hnone
  refine wp_imp (freewalk_spec 3 hp hl (by omega)) fun _ s' hs' => ?_
  obtain ⟨h', hsame, -⟩ := hs'
  have hset : (pend ∪ tables s.mem 3 r) \ tables s.mem 3 r = pend := by
    rw [Set.union_sdiff_right]
    refine sdiff_eq_left.mpr (Set.disjoint_left.mpr ?_)
    rintro b hb ⟨q, hq, hf⟩
    exact (h.table hr (by omega) hf).2.2 hb
  rw [hset] at h'
  exact ⟨h', hsame.leaves⟩

end Xv6.Vm
