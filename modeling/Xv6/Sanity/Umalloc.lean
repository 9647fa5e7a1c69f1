import Xv6.Lib.Blocks
import Xv6.Lib.Links
import Xv6.Spec.Umalloc

/-! The ring of free blocks and what `free` and `malloc` do to it. -/

namespace Xv6.Umalloc

open Wp Links Blocks

/-- Something is between the end of `x` and `y`. -/
def Apart (x y : ℕ × ℕ) : Prop := blockEnd HDR x < y.1

/-- Another header at `a`. -/
def Heap.put (σ : Heap) (a : ℕ) (hdr : Header) : Heap := { σ with mem := Function.update σ.mem a hdr }

theorem Heap.put_self (σ : Heap) (a : ℕ) (hdr : Header) : (σ.put a hdr).mem a = hdr := Function.update_self ..

theorem Heap.put_of_ne {a b : ℕ} (h : b ≠ a) (σ : Heap) (hdr : Header) : (σ.put a hdr).mem b = σ.mem b :=
  Function.update_of_ne h ..

/-- Free blocks, one after the other, the last of which is followed by `base`. No two of them could be one. -/
structure Segment (base : ℕ) (S : List (ℕ × ℕ)) (σ : Heap) : Prop where
  chain : Chain (fun a => (σ.mem a).ptr) (S.map Prod.fst) base
  size : ∀ y ∈ S, (σ.mem y.1).size.toNat = y.2
  apart : S.Pairwise Apart

/-- The free blocks `F` and the blocks in use `A`. The ring starts at `base`, which is a block without units. -/
structure Inv (base : ℕ) (F A : List (ℕ × ℕ)) (σ : Heap) : Prop where
  ring : Segment base ((base, 0) :: F) σ
  freep : σ.freep ∈ ((base, 0) :: F).map Prod.fst
  used : ∀ x ∈ A, (σ.mem x.1).size.toNat = x.2
  pos : ∀ x ∈ F ++ A, 0 < x.2
  cut : ((F ++ A).flatMap (units HDR)).Perm (σ.regions.flatMap (units HDR))
  ascend : σ.regions.Pairwise (Before HDR)
  bounds : ∀ r ∈ σ.regions, base + HDR ≤ r.1 ∧ blockEnd HDR r ≤ σ.top
  low : base + HDR ≤ σ.top
  total : (σ.regions.map Prod.snd).sum < 2 ^ 32

variable {base : ℕ} {F A A' S S' L R : List (ℕ × ℕ)} {σ σ' : Heap} {x y : ℕ × ℕ}

section Segments

theorem Segment.suffix (h : Segment base S σ) (hs : S' <:+ S) : Segment base S' σ := by
  obtain ⟨P, rfl⟩ := hs
  have hchain := h.chain
  rw [List.map_append] at hchain
  exact ⟨(chain_append.mp hchain).2, fun y hy => h.size y (List.mem_append_right P hy), (List.pairwise_append.mp h.apart).2.1⟩

theorem Segment.congr (h : Segment base S σ) (hsame : ∀ y ∈ S, σ'.mem y.1 = σ.mem y.1) : Segment base S σ' := by
  refine ⟨h.chain.congr fun a ha => ?_, fun y hy => ?_, h.apart⟩
  · obtain ⟨y, hy, rfl⟩ := List.mem_map.mp ha
    rw [hsame y hy]
  · rw [hsame y hy]
    exact h.size y hy

/-- From `x` on the blocks are others. -/
theorem Segment.glue {m : ℕ} (h : Segment base (L ++ x :: R) σ) (h' : Segment base ((x.1, m) :: S) σ')
    (hsame : ∀ y ∈ L, σ'.mem y.1 = σ.mem y.1) (hap : ∀ y ∈ L, ∀ z ∈ S, Apart y z) : Segment base (L ++ (x.1, m) :: S) σ' := by
  have hchain := h.chain
  rw [List.map_append] at hchain
  obtain ⟨hL, hR, hLR⟩ := List.pairwise_append.mp h.apart
  refine ⟨?_, fun y hy => ?_, ?_⟩
  · rw [List.map_append]
    refine chain_append.mpr ⟨(chain_append.mp hchain).1.congr fun a ha => ?_, h'.chain⟩
    obtain ⟨y, hy, rfl⟩ := List.mem_map.mp ha
    rw [hsame y hy]
  · rcases List.mem_append.mp hy with hy | hy
    · rw [hsame y hy]
      exact h.size y (List.mem_append_left _ hy)
    · exact h'.size y hy
  · refine List.pairwise_append.mpr ⟨hL, h'.apart, fun y hy z hz => ?_⟩
    rcases List.mem_cons.mp hz with rfl | hz
    · exact hLR y hy x List.mem_cons_self
    · exact hap y hy z hz

/-- A block in front of a segment. -/
theorem Segment.cons {a m : ℕ} (h : Segment base S σ) (hptr : (σ.mem a).ptr = (S.map Prod.fst).head?.getD base)
    (hsize : (σ.mem a).size.toNat = m) (hap : ∀ y ∈ S, Apart (a, m) y) : Segment base ((a, m) :: S) σ := by
  refine ⟨⟨hptr, h.chain⟩, fun y hy => ?_, List.pairwise_cons.mpr ⟨hap, h.apart⟩⟩
  rcases List.mem_cons.mp hy with rfl | hy
  · exact hsize
  · exact h.size y hy

end Segments

section Facts

theorem Inv.perm (h : Inv base F A σ) (hp : A.Perm A') : Inv base F A' σ where
  ring := h.ring
  freep := h.freep
  used x hx := h.used x (hp.mem_iff.mpr hx)
  pos x hx := h.pos x (((hp.append_left _).mem_iff).mpr hx)
  cut := ((hp.append_left F).flatMap_right _).symm.trans h.cut
  ascend := h.ascend
  bounds := h.bounds
  low := h.low
  total := h.total

theorem Inv.off (h : Inv base F A σ) : (F ++ A).Pairwise (Off HDR) := pairwise_off (by decide) h.cut h.ascend h.pos

theorem Inv.within (h : Inv base F A σ) (hx : x ∈ F ++ A) : base + HDR ≤ x.1 ∧ blockEnd HDR x ≤ σ.top :=
  Blocks.within h.cut h.bounds hx (h.pos x hx)

/-- Every block has its own header. -/
theorem Inv.nodup (h : Inv base F A σ) : (((base, 0) :: (F ++ A)).map Prod.fst).Nodup := by
  refine List.nodup_cons.mpr ⟨?_, ?_⟩
  · intro hin
    obtain ⟨x, hx, he⟩ := List.mem_map.mp hin
    have := (h.within hx).1
    rw [HDR] at this
    omega
  · rw [List.Nodup, List.pairwise_map]
    refine h.off.imp_of_mem fun {x y} hx hy hoff he => ?_
    have h1 := h.pos x hx
    have h2 := h.pos y hy
    rcases hoff with hoff | hoff
    · rw [Before, blockEnd, HDR] at hoff
      omega
    · rw [Before, blockEnd, HDR] at hoff
      omega

theorem Inv.sum_lt (h : Inv base F A σ) : ((F ++ A).map Prod.snd).sum < 2 ^ 32 := by
  rw [sum_of_cut h.cut]
  exact h.total

/-- The ring has no more nodes than there are addresses. -/
theorem Inv.length_le (h : Inv base F A σ) : (((base, 0) :: F).map Prod.fst).length ≤ σ.top + 1 := by
  have hnd : (((base, 0) :: F).map Prod.fst).Nodup := by
    refine h.nodup.sublist (List.Sublist.map _ ?_)
    exact (List.sublist_append_left F A).cons_cons _
  have hsub : ((base, 0) :: F).map Prod.fst ⊆ List.range (σ.top + 1) := by
    intro a ha
    rw [List.mem_range]
    rcases List.mem_cons.mp ha with rfl | ha
    · have := h.low
      omega
    · obtain ⟨x, hx, rfl⟩ := List.mem_map.mp ha
      have := (h.within (List.mem_append_left A hx)).2
      rw [blockEnd] at this
      omega
  have := (List.subperm_of_subset hnd hsub).length_le
  rwa [List.length_range] at this

end Facts

section Find

variable {bp q : ℕ}

/-- Where the loop of `free` stops. -/
def Place (σ : Heap) (bp q : ℕ) : Prop :=
  (q < bp ∧ bp < (σ.mem q).ptr) ∨ ((σ.mem q).ptr ≤ q ∧ (q < bp ∨ bp < (σ.mem q).ptr))

theorem findPlace_spec {e : ℕ} : ∀ l p k, Chain (fun a => (σ.mem a).ptr) (p :: l) e → l.length < k →
    (∃ x ∈ p :: l, Place σ bp x) →
    wp (findPlace bp k p) (fun q σ' => σ' = σ ∧ q ∈ p :: l ∧ Place σ bp q) (fun _ => False) σ := by
  intro l
  induction l with
  | nil =>
    intro p k hc hk hex
    obtain ⟨x, hx, hplace⟩ := hex
    obtain rfl := List.mem_singleton.mp hx
    obtain ⟨k, rfl⟩ := Nat.exists_eq_succ_of_ne_zero (Nat.ne_zero_of_lt hk)
    simp only [findPlace, load, wp_bind, wp_get, wp_pure, wp_ite]
    refine ⟨fun h1 => ⟨trivial, hx, hplace⟩, fun h1 => ⟨fun h2 => ⟨trivial, hx, hplace⟩, fun h2 => ?_⟩⟩
    rcases hplace with hplace | hplace
    · exact absurd hplace h1
    · exact absurd hplace h2
  | cons y l ih =>
    intro p k hc hk hex
    obtain ⟨k, rfl⟩ := Nat.exists_eq_succ_of_ne_zero (Nat.ne_zero_of_lt hk)
    simp only [findPlace, load, wp_bind, wp_get, wp_pure, wp_ite]
    refine ⟨fun h1 => ⟨trivial, List.mem_cons_self, .inl h1⟩, fun h1 => ⟨fun h2 => ⟨trivial, List.mem_cons_self, .inr h2⟩,
      fun h2 => ?_⟩⟩
    have hnext : (σ.mem p).ptr = y := hc.1
    have hex' : ∃ x ∈ y :: l, Place σ bp x := by
      obtain ⟨x, hx, hplace⟩ := hex
      rcases List.mem_cons.mp hx with rfl | hx
      · rcases hplace with hplace | hplace
        · exact absurd hplace h1
        · exact absurd hplace h2
      · exact ⟨x, hx, hplace⟩
    rw [hnext]
    apply wp_imp (ih y k hc.2 (by rw [List.length_cons] at hk; omega) hex')
    rintro q σ' ⟨rfl, hq, hplace⟩
    exact ⟨rfl, List.mem_cons_of_mem p hq, hplace⟩

/-- There is such a place on a ring whose lowest node is `base`. -/
theorem exists_place : ∀ l a, Chain (fun a => (σ.mem a).ptr) (a :: l) base → a < bp → (∀ y ∈ a :: l, base ≤ y ∧ y ≠ bp) →
    ∃ x ∈ a :: l, Place σ bp x := by
  intro l
  induction l with
  | nil =>
    intro a hc ha hall
    have hnext : (σ.mem a).ptr = base := hc.1
    refine ⟨a, List.mem_cons_self, .inr ⟨?_, .inl ha⟩⟩
    rw [hnext]
    exact (hall a List.mem_cons_self).1
  | cons y l ih =>
    intro a hc ha hall
    have hnext : (σ.mem a).ptr = y := hc.1
    rcases Nat.lt_or_ge bp y with hlt | hge
    · exact ⟨a, List.mem_cons_self, .inl ⟨ha, hnext ▸ hlt⟩⟩
    · have hne := (hall y (by simp)).2
      obtain ⟨x, hx, hplace⟩ := ih y hc.2 (by omega) fun z hz => hall z (List.mem_cons_of_mem a hz)
      exact ⟨x, List.mem_cons_of_mem a hx, hplace⟩

/-- The ring goes over `bp` between `x` and `R`. -/
structure Gap (base : ℕ) (F : List (ℕ × ℕ)) (bp : ℕ) (L : List (ℕ × ℕ)) (x : ℕ × ℕ) (R : List (ℕ × ℕ)) : Prop where
  split : (base, 0) :: F = L ++ x :: R
  below : ∀ y ∈ L, y.1 < x.1
  lt : x.1 < bp
  above : ∀ y ∈ R, bp < y.1

theorem Segment.ptr_eq (h : Segment base (L ++ x :: R) σ) : (σ.mem x.1).ptr = (R.map Prod.fst).head?.getD base := by
  have hchain := h.chain
  rw [List.map_append] at hchain
  exact (chain_append.mp hchain).2.1

theorem Inv.gap (h : Inv base F A σ) (hbp : base < bp) (hq : q ∈ ((base, 0) :: F).map Prod.fst) (hplace : Place σ bp q) :
    ∃ L x R, x.1 = q ∧ Gap base F bp L x R := by
  obtain ⟨x, hx, rfl⟩ := List.mem_map.mp hq
  obtain ⟨L, R, hG⟩ := List.append_of_mem hx
  have hring := h.ring
  rw [hG] at hring
  obtain ⟨-, hR, hL⟩ := List.pairwise_append.mp hring.apart
  obtain ⟨hxR, hRR⟩ := List.pairwise_cons.mp hR
  have hbase : base ≤ x.1 := by
    rcases List.mem_cons.mp hx with rfl | hx
    · exact le_rfl
    · have := (h.within (List.mem_append_left A hx)).1
      omega
  have hbelow : ∀ y ∈ L, y.1 < x.1 := by
    intro y hy
    have := hL y hy x List.mem_cons_self
    rw [Apart, blockEnd] at this
    omega
  rw [Place, hring.ptr_eq] at hplace
  refine ⟨L, x, R, rfl, hG, hbelow, ?_, ?_⟩
  · cases R with
    | nil =>
      simp only [List.map_nil, List.head?_nil, Option.getD_none] at hplace
      omega
    | cons r R =>
      have := hxR r List.mem_cons_self
      rw [Apart, blockEnd] at this
      simp only [List.map_cons, List.head?_cons, Option.getD_some] at hplace
      omega
  · intro y hy
    cases R with
    | nil => cases hy
    | cons r R =>
      have hr := hxR r List.mem_cons_self
      rw [Apart, blockEnd] at hr
      simp only [List.map_cons, List.head?_cons, Option.getD_some] at hplace
      have hbr : bp < r.1 := by omega
      rcases List.mem_cons.mp hy with rfl | hy
      · exact hbr
      · have hry := (List.pairwise_cons.mp hRR).1 y hy
        rw [Apart, blockEnd] at hry
        omega

variable {n : ℕ}

theorem Inv.findPlace (h : Inv base F ((bp, n) :: A) σ) : wp (Umalloc.findPlace bp (σ.top + 2) σ.freep)
    (fun q σ' => σ' = σ ∧ ∃ L x R, x.1 = q ∧ Gap base F bp L x R) (fun _ => False) σ := by
  have hbp : base < bp := by
    have := (h.within (List.mem_append_right F List.mem_cons_self)).1
    rw [HDR] at this
    omega
  have hnodes : ∀ y ∈ ((base, 0) :: F).map Prod.fst, base ≤ y ∧ y ≠ bp := by
    intro y hy
    have hnd := h.nodup
    rw [← List.cons_append, List.map_append] at hnd
    refine ⟨?_, fun he => List.disjoint_of_nodup_append hnd hy (he ▸ List.mem_cons_self)⟩
    rcases List.mem_cons.mp hy with rfl | hy
    · exact le_rfl
    · obtain ⟨x, hx, rfl⟩ := List.mem_map.mp hy
      have := (h.within (List.mem_append_left _ hx)).1
      omega
  obtain ⟨r, hr, hperm⟩ := Chain.rotate h.ring.chain h.freep
  obtain ⟨x, hx, hplace⟩ := exists_place _ _ h.ring.chain hbp hnodes
  have hlen := h.length_le
  have hlen' := hperm.length_eq
  rw [List.length_cons] at hlen'
  have hlen'' : r.length < σ.top + 2 := by
    rw [List.map_cons] at hlen
    omega
  apply wp_mono (findPlace_spec r σ.freep (σ.top + 2) hr hlen'' ⟨x, hperm.mem_iff.mpr hx, hplace⟩) _ fun _ => id
  rintro q σ' ⟨rfl, hq, hplace⟩
  exact ⟨rfl, h.gap hbp (hperm.mem_iff.mp hq) hplace⟩

end Find

section Link

variable {a b m m' : ℕ}

/-- What `link` makes of the block `(a, m)` in front of `S`: it may take in the first of them. -/
inductive Joined (a m : ℕ) (S : List (ℕ × ℕ)) : ℕ → List (ℕ × ℕ) → Prop where
  | apart (h : ∀ y ∈ S, Apart (a, m) y) : Joined a m S m S
  | one {y : ℕ × ℕ} {S' : List (ℕ × ℕ)} (hS : S = y :: S') (hy : y.1 = blockEnd HDR (a, m))
      (h : ∀ z ∈ S', Apart (a, m + y.2) z) : Joined a m S (m + y.2) S'

theorem Joined.units (h : Joined a m S m' S') :
    Blocks.units HDR (a, m) ++ S.flatMap (Blocks.units HDR) = Blocks.units HDR (a, m') ++ S'.flatMap (Blocks.units HDR) := by
  cases h with
  | apart => rfl
  | @one y _ hS hy =>
    subst hS
    rw [List.flatMap_cons, units_add, List.append_assoc]
    have : y = (a + m * HDR, y.2) := Prod.ext hy rfl
    rw [← this]

theorem Joined.suffix (h : Joined a m S m' S') : S' <:+ S := by
  cases h with
  | apart => exact List.suffix_refl _
  | one hS => exact hS ▸ List.suffix_cons _ _

theorem Joined.le (h : Joined a m S m' S') : m ≤ m' := by
  cases h with
  | apart => exact le_rfl
  | one => exact Nat.le_add_right _ _

theorem Joined.away (h : Joined a m S m' S') : ∀ y ∈ S', Apart (a, m') y := by
  cases h with
  | apart h => exact h
  | one _ _ h => exact h

/-- A block is put in front of a segment. -/
theorem Segment.link (h : Segment base S σ) (hm : (σ.mem a).size.toNat = m) (hbase : S = [] → blockEnd HDR (a, m) ≠ base)
    (hafter : ∀ y ∈ S, Before HDR (a, m) y) (hsum : m + (S.map Prod.snd).sum < 2 ^ 32) (ha : a ∉ S.map Prod.fst) :
    wp (link a ((S.map Prod.fst).head?.getD base)) (fun _ σ' => ∃ m' S', Joined a m S m' S' ∧ Segment base ((a, m') :: S') σ' ∧
      ∃ hdr, σ' = σ.put a hdr) (fun _ => False) σ := by
  -- the new header of `a`, in front of a suffix of `S`
  have hdone : ∀ hdr m' S', hdr.ptr = (S'.map Prod.fst).head?.getD base → hdr.size.toNat = m' → Joined a m S m' S' →
      ∃ m' S', Joined a m S m' S' ∧ Segment base ((a, m') :: S') (σ.put a hdr) ∧ ∃ hdr', σ.put a hdr = σ.put a hdr' := by
    intro hdr m' S' hptr hsize hj
    refine ⟨m', S', hj, ?_, _, rfl⟩
    have hrest : Segment base S' (σ.put a hdr) := by
      refine (h.suffix hj.suffix).congr fun y hy => Heap.put_of_ne ?_ ..
      rintro rfl
      exact ha (List.mem_map_of_mem (hj.suffix.subset hy))
    refine hrest.cons ?_ ?_ hj.away
    · rw [Heap.put_self]
      exact hptr
    · rw [Heap.put_self]
      exact hsize
  simp only [Umalloc.link, load, setSize, setPtr, wp_bind, wp_get, wp_pure, wp_modify, wp_ite, hm]
  cases S with
  | nil => exact ⟨fun hadj => absurd hadj (hbase rfl), fun _ => hdone _ m [] rfl hm (.apart (by simp))⟩
  | cons y S =>
    obtain ⟨hy, hS⟩ := List.pairwise_cons.mp h.apart
    have hb : ((y :: S).map Prod.fst).head?.getD base = y.1 := rfl
    rw [hb]
    constructor
    · intro hadj
      have hne : y.1 ≠ a := fun he => ha (he ▸ List.mem_cons_self)
      have hptr : (σ.mem y.1).ptr = (S.map Prod.fst).head?.getD base := h.chain.1
      rw [Function.update_self, Function.update_idem, Function.update_of_ne hne]
      apply hdone ⟨(σ.mem y.1).ptr, (σ.mem a).size + (σ.mem y.1).size⟩ (m + y.2) S hptr
      · rw [List.map_cons, List.sum_cons] at hsum
        rw [UInt32.toNat_add, hm, h.size y List.mem_cons_self, Nat.mod_eq_of_lt (by omega)]
      · refine .one rfl hadj.symm fun z hz => ?_
        have := hy z hz
        rw [Apart, blockEnd] at this ⊢
        rw [Nat.add_mul, ← Nat.add_assoc, hadj]
        exact this
    · intro hadj
      refine hdone _ m (y :: S) rfl hm (.apart ?_)
      have hfirst : Apart (a, m) y := Nat.lt_of_le_of_ne (hafter y List.mem_cons_self) hadj
      intro z hz
      rcases List.mem_cons.mp hz with rfl | hz
      · exact hfirst
      · have := hy z hz
        rw [Apart, blockEnd] at this hfirst ⊢
        omega

end Link

section Free

variable {bp n : ℕ}

theorem Joined.sum {a m m' : ℕ} (h : Joined a m S m' S') : m + (S.map Prod.snd).sum = m' + (S'.map Prod.snd).sum := by
  cases h with
  | apart => rfl
  | one hS => rw [hS, List.map_cons, List.sum_cons, Nat.add_assoc]

/-- The blocks around the gap that a block in use leaves on the ring. -/
theorem Inv.around (h : Inv base F ((bp, n) :: A) σ) (hg : Gap base F bp L x R) : Before HDR x (bp, n) ∧
    (∀ y ∈ R, y ∈ F ∧ Before HDR (bp, n) y) ∧ x.2 + (n + (R.map Prod.snd).sum) < 2 ^ 32 := by
  have hbp := (h.within (List.mem_append_right F List.mem_cons_self)).1
  have hF : ∀ y ∈ L ++ x :: R, y = (base, 0) ∨ y ∈ F := by
    intro y hy
    rw [← hg.split] at hy
    exact List.mem_cons.mp hy
  have hoff : ∀ y ∈ F, Off HDR y (bp, n) := fun y hy => (List.pairwise_append.mp h.off).2.2 y hy (bp, n) List.mem_cons_self
  refine ⟨?_, fun y hy => ?_, ?_⟩
  · rcases hF x (by simp) with rfl | hx
    · rw [Before, blockEnd]
      dsimp only at hbp ⊢
      omega
    · have hlt := hg.lt
      rcases hoff x hx with hb | hb
      · exact hb
      · rw [Before, blockEnd] at hb
        dsimp only at hb
        omega
  · have hlt := hg.above y hy
    rcases hF y (by simp [hy]) with rfl | hyF
    · dsimp only at hbp hlt
      omega
    · refine ⟨hyF, ?_⟩
      rcases hoff y hyF with hb | hb
      · rw [Before, blockEnd] at hb
        dsimp only at hb
        omega
      · exact hb
  · have hsum := h.sum_lt
    have hG : ((L ++ x :: R).map Prod.snd).sum = (F.map Prod.snd).sum := by
      rw [← hg.split, List.map_cons, List.sum_cons, Nat.zero_add]
    simp only [List.map_append, List.map_cons, List.sum_append, List.sum_cons] at hsum hG
    omega

/-- The ring with the block `bp` in it. -/
theorem Inv.insert {m n1 : ℕ} {R1 : List (ℕ × ℕ)} (h : Inv base F ((bp, n) :: A) σ) (hg : Gap base F bp L x R)
    (hj : Joined bp n R n1 R1) (hj' : Joined x.1 x.2 ((bp, n1) :: R1) m S) (hseg : Segment base ((x.1, m) :: S) σ')
    (hsame : ∀ a, a ≠ bp → a ≠ x.1 → σ'.mem a = σ.mem a) (hfreep : σ'.freep = x.1) (htop : σ'.top = σ.top)
    (hregions : σ'.regions = σ.regions) :
    ∃ F', Inv base F' A σ' ∧ F'.length ≤ F.length + 1 ∧ ∃ y ∈ F', n ≤ y.2 := by
  have hring := h.ring
  rw [hg.split] at hring
  have hnpos : 0 < n := h.pos (bp, n) (List.mem_append_right F List.mem_cons_self)
  have hSsub : ∀ y ∈ S, y = (bp, n1) ∨ y ∈ R := fun y hy => by
    rcases List.mem_cons.mp (hj'.suffix.subset hy) with rfl | hy
    · exact .inl rfl
    · exact .inr (hj.suffix.subset hy)
  obtain ⟨-, hRap, hLap⟩ := List.pairwise_append.mp hring.apart
  -- the nodes of the new ring
  have hnew : Segment base (L ++ (x.1, m) :: S) σ' := by
    refine hring.glue hseg (fun y hy => hsame y.1 ?_ ?_) fun y hy z hz => ?_
    · have := hg.below y hy
      have := hg.lt
      omega
    · exact (hg.below y hy).ne
    · rcases hSsub z hz with rfl | hz
      · exact (hLap y hy x List.mem_cons_self).trans hg.lt
      · exact hLap y hy z (List.mem_cons_of_mem x hz)
  -- `base` is still the first of them, and has no units
  obtain ⟨F', hF'⟩ : ∃ F', (base, 0) :: F' = L ++ (x.1, m) :: S := by
    cases L with
    | cons b L =>
      have hb := (List.cons.inj hg.split).1
      exact ⟨L ++ (x.1, m) :: S, by rw [hb]; rfl⟩
    | nil =>
      obtain ⟨hx, -⟩ := List.cons.inj hg.split
      subst hx
      cases hj' with
      | apart => exact ⟨_, rfl⟩
      | one hS hy =>
        have hlt := hg.lt
        obtain ⟨rfl, -⟩ := List.cons.inj hS
        rw [blockEnd] at hy
        dsimp only at hy hlt
        omega
  have hbase : ∀ y ∈ F', y.1 ≠ base := by
    intro y hy he
    have hap := hnew.apart
    rw [← hF'] at hap
    have := (List.pairwise_cons.mp hap).1 y hy
    rw [Apart, blockEnd] at this
    dsimp only at this
    omega
  have hpos : ∀ y ∈ L ++ x :: R, y.1 ≠ base → 0 < y.2 := by
    intro y hy hne
    rw [← hg.split] at hy
    rcases List.mem_cons.mp hy with rfl | hy
    · exact absurd rfl hne
    · exact h.pos y (List.mem_append_left _ hy)
  have hunits : F'.flatMap (units HDR) = L.flatMap (units HDR) ++ (units HDR x ++ (units HDR (bp, n) ++ R.flatMap (units HDR))) := by
    have hcons : ((base, 0) :: F').flatMap (units HDR) = F'.flatMap (units HDR) := rfl
    rw [← hcons, hF', List.flatMap_append, List.flatMap_cons, ← hj'.units, List.flatMap_cons, ← hj.units]
  have hunits0 : F.flatMap (units HDR) = L.flatMap (units HDR) ++ (units HDR x ++ R.flatMap (units HDR)) := by
    have hcons : ((base, 0) :: F).flatMap (units HDR) = F.flatMap (units HDR) := rfl
    rw [← hcons, hg.split, List.flatMap_append, List.flatMap_cons]
  have hnd := h.nodup
  rw [← List.cons_append, List.map_append, hg.split] at hnd
  refine ⟨F', ⟨hF' ▸ hnew, ?_, ?_, ?_, ?_, ?_, ?_, ?_, ?_⟩, ?_, ?_⟩
  · rw [hfreep, hF']
    simp
  · intro y hy
    have hybp : y.1 ≠ bp := by
      have := (List.nodup_append.mp hnd).2.1
      rw [List.map_cons, List.nodup_cons] at this
      exact fun he => this.1 (List.mem_map.mpr ⟨y, hy, he⟩)
    have hyx : y.1 ≠ x.1 := fun he => (List.nodup_append.mp hnd).2.2 x.1 (by simp) y.1
      (List.mem_map_of_mem (List.mem_cons_of_mem _ hy)) he.symm
    rw [hsame y.1 hybp hyx]
    exact h.used y (List.mem_cons_of_mem _ hy)
  · intro y hy
    rcases List.mem_append.mp hy with hy | hy
    · have hyL : y ∈ L ++ (x.1, m) :: S := hF' ▸ List.mem_cons_of_mem _ hy
      rcases List.mem_append.mp hyL with hyL | hyL
      · exact hpos y (by simp [hyL]) (hbase y hy)
      · rcases List.mem_cons.mp hyL with rfl | hyS
        · exact (hpos x (by simp) (hbase (x.1, m) hy)).trans_le hj'.le
        · rcases hSsub y hyS with rfl | hyR
          · exact hnpos.trans_le hj.le
          · exact hpos y (by simp [hyR]) (hbase y hy)
    · exact h.pos y (by simp [hy])
  · have hcut := h.cut
    rw [List.flatMap_append, List.flatMap_cons, hunits0] at hcut
    rw [List.flatMap_append, hunits, hregions]
    refine List.Perm.trans ?_ hcut
    simp only [List.append_assoc]
    refine .append_left _ (.append_left _ ?_)
    rw [← List.append_assoc, ← List.append_assoc]
    exact .append_right _ List.perm_append_comm
  · rw [hregions]
    exact h.ascend
  · rw [hregions, htop]
    exact h.bounds
  · rw [htop]
    exact h.low
  · rw [hregions]
    exact h.total
  · have h1 := congrArg List.length hg.split
    have h2 := congrArg List.length hF'
    have h3 := hj.suffix.length_le
    have h4 := hj'.suffix.length_le
    simp only [List.length_append, List.length_cons] at h1 h2 h4
    omega
  · have hmem : ∀ y ∈ (x.1, m) :: S, n ≤ y.2 → ∃ y ∈ F', n ≤ y.2 := by
      intro y hy hle
      have hin : y ∈ (base, 0) :: F' := hF' ▸ List.mem_append_right L hy
      rcases List.mem_cons.mp hin with rfl | hin
      · exact absurd hle (Nat.not_le.mpr hnpos)
      · exact ⟨y, hin, hle⟩
    cases hj' with
    | apart => exact hmem (bp, n1) (by simp) hj.le
    | one hS =>
      obtain ⟨rfl, -⟩ := List.cons.inj hS
      exact hmem _ List.mem_cons_self (hj.le.trans (Nat.le_add_left _ _))

theorem free_spec (h : Inv base F ((bp, n) :: A) σ) : wp (free (bp + HDR)) (fun _ σ' => ∃ F', Inv base F' A σ' ∧
    F'.length ≤ F.length + 1 ∧ ∃ y ∈ F', n ≤ y.2) (fun _ => False) σ := by
  simp only [free, Nat.add_sub_cancel, wp_bind, wp_get]
  apply wp_mono h.findPlace _ fun _ => id
  rintro _ σ ⟨rfl, L, x, R, rfl, hg⟩
  obtain ⟨hx, hR, hsum⟩ := h.around hg
  have hring := h.ring
  rw [hg.split] at hring
  have hsegR : Segment base R σ := hring.suffix ⟨L ++ [x], by simp⟩
  have hsize : (σ.mem bp).size.toNat = n := h.used (bp, n) List.mem_cons_self
  have hbp : base < bp := by
    have := (h.within (List.mem_append_right F List.mem_cons_self)).1
    rw [HDR] at this
    dsimp only at this
    omega
  have hbpR : bp ∉ R.map Prod.fst := by
    intro hin
    obtain ⟨y, hy, he⟩ := List.mem_map.mp hin
    have := hg.above y hy
    omega
  simp only [load, wp_bind, wp_get, wp_pure, hring.ptr_eq]
  apply wp_mono (hsegR.link hsize (fun _ => by rw [blockEnd]; dsimp only; omega) (fun y hy => (hR y hy).2) (by omega) hbpR) _
    fun _ => id
  rintro _ _ ⟨n1, R1, hj, hseg, hdr, rfl⟩
  have hsum' := hj.sum
  have hlt := hg.lt
  have hxsize : ((σ.put bp hdr).mem x.1).size.toNat = x.2 := by
    rw [Heap.put_of_ne hlt.ne]
    exact hring.size x (by simp)
  have hafter : ∀ y ∈ (bp, n1) :: R1, Before HDR x y := by
    intro y hy
    rcases List.mem_cons.mp hy with rfl | hy
    · exact hx
    · have := (List.pairwise_cons.mp (List.pairwise_append.mp hring.apart).2.1).1 y (hj.suffix.subset hy)
      exact Nat.le_of_lt this
  have hxR : x.1 ∉ ((bp, n1) :: R1).map Prod.fst := by
    intro hin
    rcases List.mem_cons.mp hin with he | hin
    · exact hlt.ne he
    · obtain ⟨y, hy, he⟩ := List.mem_map.mp hin
      have := hg.above y (hj.suffix.subset hy)
      omega
  have hlink := hseg.link hxsize (by simp) hafter (by rw [List.map_cons, List.sum_cons]; omega) hxR
  apply wp_mono hlink _ fun _ => id
  rintro _ _ ⟨m, S, hj', hseg', hdr', rfl⟩
  simp only [setFreep, wp_modify]
  have hfinal : Segment base ((x.1, m) :: S) { (σ.put bp hdr).put x.1 hdr' with freep := x.1 } :=
    ⟨hseg'.chain, hseg'.size, hseg'.apart⟩
  exact h.insert hg hj hj' hfinal (fun a h1 h2 => (Heap.put_of_ne h2 ..).trans (Heap.put_of_ne h1 ..)) rfl rfl rfl

end Free

end Xv6.Umalloc
