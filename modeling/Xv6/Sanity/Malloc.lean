import Xv6.Sanity.Umalloc

/-! The search of `malloc`, and what it takes from the ring. -/

namespace Xv6.Umalloc

open Wp Links Blocks

variable {base : ℕ} {F F' A L R : List (ℕ × ℕ)} {σ σ' : Heap} {x y pr : ℕ × ℕ} {answer : Sbrk} {nunits : UInt32}

section Take

/-- The free blocks `F` are cut into `F'` and a block in use. -/
theorem Inv.take {a n : ℕ} (h : Inv base F A σ) (hring : Segment base ((base, 0) :: F') σ')
    (hfreep : σ'.freep ∈ ((base, 0) :: F').map Prod.fst) (hnew : (σ'.mem a).size.toNat = n)
    (hpos : ∀ y ∈ (a, n) :: F', 0 < y.2) (hsame : ∀ y ∈ A, σ'.mem y.1 = σ.mem y.1)
    (hcut : (F'.flatMap (units HDR) ++ units HDR (a, n)).Perm (F.flatMap (units HDR))) (htop : σ'.top = σ.top)
    (hregions : σ'.regions = σ.regions) : Inv base F' ((a, n) :: A) σ' where
  ring := hring
  freep := hfreep
  used y hy := by
    rcases List.mem_cons.mp hy with rfl | hy
    · exact hnew
    · rw [hsame y hy]
      exact h.used y hy
  pos y hy := by
    rcases List.mem_append.mp hy with hy | hy
    · exact hpos y (List.mem_cons_of_mem _ hy)
    · rcases List.mem_cons.mp hy with rfl | hy
      · exact hpos _ List.mem_cons_self
      · exact h.pos y (List.mem_append_right F hy)
  cut := by
    have hA := h.cut
    rw [List.flatMap_append] at hA
    rw [List.flatMap_append, List.flatMap_cons, ← List.append_assoc, hregions]
    exact (hcut.append_right _).trans hA
  ascend := hregions ▸ h.ascend
  bounds := by
    rw [hregions, htop]
    exact h.bounds
  low := htop ▸ h.low
  total := hregions ▸ h.total

/-- A node that is followed by a block which is not empty. -/
theorem Inv.follow {prevp : ℕ} (h : Inv base F A σ) (hprev : prevp ∈ ((base, 0) :: F).map Prod.fst)
    (hsize : 0 < (σ.mem (σ.mem prevp).ptr).size.toNat) :
    ∃ L pr x R, pr.1 = prevp ∧ x.1 = (σ.mem prevp).ptr ∧ (base, 0) :: F = L ++ pr :: x :: R := by
  obtain ⟨pr, hpr, rfl⟩ := List.mem_map.mp hprev
  obtain ⟨L, R, hG⟩ := List.append_of_mem hpr
  have hring := h.ring
  rw [hG] at hring
  cases R with
  | nil =>
    have hbase : (σ.mem base).size.toNat = 0 := h.ring.size (base, 0) List.mem_cons_self
    rw [hring.ptr_eq] at hsize
    exact absurd hbase hsize.ne'
  | cons x R => exact ⟨L, pr, x, R, rfl, hring.ptr_eq.symm, hG⟩

/-- The header of a block in use is not on the ring. -/
theorem Inv.used_ne (h : Inv base F A σ) (hx : x ∈ (base, 0) :: F) (hy : y ∈ A) : y.1 ≠ x.1 := by
  have hnd := h.nodup
  rw [← List.cons_append, List.map_append] at hnd
  intro he
  exact List.disjoint_of_nodup_append hnd (List.mem_map_of_mem hx) (he ▸ List.mem_map_of_mem hy)

/-- No header is inside of a block. -/
theorem Inv.inside {a : ℕ} (h : Inv base F A σ) (hx : x ∈ F ++ A) (hlo : x.1 < a) (hhi : a < blockEnd HDR x) :
    ∀ y ∈ (base, 0) :: (F ++ A), y.1 ≠ a := by
  rintro y hy rfl
  rcases List.mem_cons.mp hy with rfl | hy
  · have := (h.within hx).1
    dsimp only at hlo
    omega
  · have hne : y ≠ x := by
      rintro rfl
      exact hlo.ne rfl
    have hy2 := h.pos y hy
    rcases h.off.forall hy hx hne with hoff | hoff
    · rw [Before, blockEnd, HDR] at hoff
      omega
    · rw [Before] at hoff
      omega

variable (h : Inv base F A σ) (hG : (base, 0) :: F = L ++ pr :: x :: R) (hpos : 0 < nunits.toNat)

include hG in
/-- The second of two nodes is a block. -/
theorem second_block : ∃ L', F = L' ++ x :: R ∧ (base, 0) :: L' = L ++ [pr] := by
  cases L with
  | nil =>
    obtain ⟨hb, hF⟩ := List.cons.inj hG
    exact ⟨[], hF, by rw [hb]; rfl⟩
  | cons b L =>
    obtain ⟨hb, hF⟩ := List.cons.inj hG
    exact ⟨L ++ [pr], by rw [hF]; simp, by rw [hb]; rfl⟩

include h hG hpos in
/-- The whole block. -/
theorem Inv.takeAll (hsize : (σ.mem x.1).size = nunits) : ∃ F', Inv base F' ((x.1, nunits.toNat) :: A)
    { σ.put pr.1 { σ.mem pr.1 with ptr := (σ.mem x.1).ptr } with freep := pr.1 } := by
  obtain ⟨L', hF, hL'⟩ := second_block hG
  have hring := h.ring
  rw [hG] at hring
  have hx2 : x.2 = nunits.toNat := by
    rw [← hring.size x (by simp), hsize]
  have hnd := h.nodup
  rw [← List.cons_append, List.map_append, hG] at hnd
  have hndG : ((L ++ pr :: x :: R).map Prod.fst).Nodup := (List.nodup_append.mp hnd).1
  rw [List.map_append, List.map_cons, List.map_cons] at hndG
  obtain ⟨-, hndR, hdis⟩ := List.nodup_append.mp hndG
  have hprx : ∀ y ∈ x :: R, y.1 ≠ pr.1 := by
    intro y hy he
    exact (List.nodup_cons.mp hndR).1 (he ▸ List.mem_map_of_mem (f := Prod.fst) hy)
  obtain ⟨-, hap, hapL⟩ := List.pairwise_append.mp hring.apart
  have hptr : (σ.mem x.1).ptr = (R.map Prod.fst).head?.getD base := by
    have hsegx : Segment base (x :: R) σ := hring.suffix ⟨L ++ [pr], by simp⟩
    exact hsegx.chain.1
  have hseg : Segment base ((pr.1, pr.2) :: R) (σ.put pr.1 { σ.mem pr.1 with ptr := (σ.mem x.1).ptr }) := by
    have hR : Segment base R σ := hring.suffix ⟨L ++ [pr, x], by simp⟩
    refine (hR.congr fun y hy => Heap.put_of_ne (hprx y (List.mem_cons_of_mem x hy)) ..).cons ?_ ?_ fun y hy => ?_
    · rw [Heap.put_self]
      exact hptr
    · rw [Heap.put_self]
      exact hring.size pr (by simp)
    · exact (List.pairwise_cons.mp hap).1 y (List.mem_cons_of_mem x hy)
  have hnew : Segment base (L ++ (pr.1, pr.2) :: R) (σ.put pr.1 { σ.mem pr.1 with ptr := (σ.mem x.1).ptr }) := by
    refine hring.glue hseg (fun y hy => Heap.put_of_ne ?_ ..) fun y hy z hz => hapL y hy z (by simp [hz])
    exact fun he => hdis y.1 (List.mem_map_of_mem hy) pr.1 List.mem_cons_self he
  have hG' : (base, 0) :: (L' ++ R) = L ++ (pr.1, pr.2) :: R := by
    rw [← List.cons_append, hL', List.append_assoc]
    rfl
  refine ⟨L' ++ R, h.take ?_ ?_ ?_ ?_ ?_ ?_ rfl rfl⟩
  · rw [hG']
    exact ⟨hnew.chain, hnew.size, hnew.apart⟩
  · rw [hG']
    simp
  · have : (σ.put pr.1 { σ.mem pr.1 with ptr := (σ.mem x.1).ptr }).mem x.1 = σ.mem x.1 :=
      Heap.put_of_ne (hprx x List.mem_cons_self) ..
    exact (congrArg (·.size.toNat) this).trans (congrArg UInt32.toNat hsize)
  · intro y hy
    rcases List.mem_cons.mp hy with rfl | hy
    · exact hpos
    · refine h.pos y (List.mem_append_left A ?_)
      rw [hF]
      rcases List.mem_append.mp hy with hy | hy
      · exact List.mem_append_left _ hy
      · exact List.mem_append_right _ (List.mem_cons_of_mem x hy)
  · intro y hy
    refine Heap.put_of_ne (h.used_ne ?_ hy) ..
    rw [hG]
    simp
  · rw [hF, List.flatMap_append, List.flatMap_append, List.flatMap_cons, List.append_assoc, ← hx2]
    exact .append_left _ List.perm_append_comm

include h hG hpos in
/-- The upper end of the block. -/
theorem Inv.takeTail (hlt : nunits < (σ.mem x.1).size) :
    ∃ F', Inv base F' ((x.1 + ((σ.mem x.1).size - nunits).toNat * HDR, nunits.toNat) :: A)
      { (σ.put x.1 { σ.mem x.1 with size := (σ.mem x.1).size - nunits }).put
          (x.1 + ((σ.mem x.1).size - nunits).toNat * HDR)
          { σ.mem (x.1 + ((σ.mem x.1).size - nunits).toNat * HDR) with size := nunits } with freep := pr.1 } := by
  obtain ⟨L', hF, hL'⟩ := second_block hG
  have hring := h.ring
  rw [hG] at hring
  have hx2 : (σ.mem x.1).size.toNat = x.2 := hring.size x (by simp)
  have hsub : ((σ.mem x.1).size - nunits).toNat = x.2 - nunits.toNat := by
    rw [UInt32.toNat_sub_of_le _ _ (UInt32.le_of_lt hlt), hx2]
  have hlt' : nunits.toNat < x.2 := hx2 ▸ UInt32.lt_iff_toNat_lt.mp hlt
  have hxF : x ∈ F := by
    rw [hF]
    simp
  generalize hn : nunits.toNat = n at *
  generalize hm : x.2 - n = m at *
  have hxm : x.2 = m + n := by omega
  rw [hsub]
  generalize hhdr : ({ σ.mem x.1 with size := (σ.mem x.1).size - nunits } : Header) = hdr
  generalize hhdr' : ({ σ.mem (x.1 + m * HDR) with size := nunits } : Header) = hdr'
  have hin : ∀ y ∈ (base, 0) :: (F ++ A), y.1 ≠ x.1 + m * HDR := by
    refine h.inside (List.mem_append_left A hxF) ?_ ?_
    · rw [HDR]
      omega
    · rw [blockEnd, HDR]
      omega
  have hold : ∀ y ∈ (base, 0) :: (F ++ A), y.1 ≠ x.1 → ((σ.put x.1 hdr).put (x.1 + m * HDR) hdr').mem y.1 = σ.mem y.1 := by
    intro y hy hne
    exact (Heap.put_of_ne (hin y hy) ..).trans (Heap.put_of_ne hne ..)
  have hGmem : ∀ y ∈ L ++ pr :: x :: R, y ∈ (base, 0) :: (F ++ A) := by
    intro y hy
    rw [← hG] at hy
    rcases List.mem_cons.mp hy with rfl | hy
    · exact List.mem_cons_self
    · exact List.mem_cons_of_mem _ (List.mem_append_left A hy)
  have hG1 : L ++ pr :: x :: R = (L ++ [pr]) ++ x :: R := by simp
  have hnd := h.nodup
  rw [← List.cons_append, List.map_append, hG, hG1] at hnd
  have hndG : (((L ++ [pr]) ++ x :: R).map Prod.fst).Nodup := (List.nodup_append.mp hnd).1
  rw [List.map_append, List.map_cons] at hndG
  obtain ⟨-, hndR, hdis⟩ := List.nodup_append.mp hndG
  rw [hG1] at hring
  obtain ⟨-, hap, hapL⟩ := List.pairwise_append.mp hring.apart
  have hxself : ((σ.put x.1 hdr).put (x.1 + m * HDR) hdr').mem x.1 = hdr :=
    (Heap.put_of_ne (hin x (hGmem x (by simp))) ..).trans (Heap.put_self ..)
  have hseg : Segment base ((x.1, m) :: R) ((σ.put x.1 hdr).put (x.1 + m * HDR) hdr') := by
    have hR : Segment base R σ := hring.suffix ⟨L ++ [pr, x], by simp⟩
    refine (hR.congr fun y hy => hold y (hGmem y (by simp [hy])) ?_).cons ?_ ?_ fun y hy => ?_
    · exact fun he => (List.nodup_cons.mp hndR).1 (he ▸ List.mem_map_of_mem (f := Prod.fst) hy)
    · rw [hxself, ← hhdr]
      exact hring.ptr_eq
    · rw [hxself, ← hhdr]
      exact hsub
    · have := (List.pairwise_cons.mp hap).1 y hy
      rw [Apart, blockEnd, HDR] at this ⊢
      dsimp only
      omega
  have hnew : Segment base ((L ++ [pr]) ++ (x.1, m) :: R) ((σ.put x.1 hdr).put (x.1 + m * HDR) hdr') := by
    refine hring.glue hseg (fun y hy => hold y (hGmem y ?_) ?_) fun y hy z hz => hapL y hy z (by simp [hz])
    · rw [hG1]
      exact List.mem_append_left _ hy
    · exact fun he => hdis y.1 (List.mem_map_of_mem hy) x.1 List.mem_cons_self he
  have hG' : (base, 0) :: (L' ++ (x.1, m) :: R) = (L ++ [pr]) ++ (x.1, m) :: R := by
    rw [← List.cons_append, hL']
  refine ⟨L' ++ (x.1, m) :: R, h.take ?_ ?_ ?_ ?_ ?_ ?_ rfl rfl⟩
  · rw [hG']
    exact ⟨hnew.chain, hnew.size, hnew.apart⟩
  · rw [hG']
    simp
  · have : ((σ.put x.1 hdr).put (x.1 + m * HDR) hdr').mem (x.1 + m * HDR) = hdr' := Heap.put_self ..
    refine (congrArg (·.size.toNat) this).trans ?_
    rw [← hhdr']
    exact hn
  · intro y hy
    rcases List.mem_cons.mp hy with rfl | hy
    · exact hpos
    · rcases List.mem_append.mp hy with hy | hy
      · exact h.pos y (List.mem_append_left A (by rw [hF]; simp [hy]))
      · rcases List.mem_cons.mp hy with rfl | hy
        · dsimp only
          omega
        · exact h.pos y (List.mem_append_left A (by rw [hF]; simp [hy]))
  · intro y hy
    refine hold y (List.mem_cons_of_mem _ (List.mem_append_right F hy)) (h.used_ne ?_ hy)
    exact List.mem_cons_of_mem _ hxF
  · have hxu : units HDR x = units HDR (x.1, m) ++ units HDR (x.1 + m * HDR, n) := by
      rw [← units_add, ← hxm]
    rw [hF, List.flatMap_append, List.flatMap_append, List.flatMap_cons, List.flatMap_cons, hxu]
    simp only [List.append_assoc]
    exact .append_left _ (.append_left _ List.perm_append_comm)

end Take

/-- What `malloc` leaves: nothing has been taken, or a block of `nunits`. -/
def Taken (base : ℕ) (A : List (ℕ × ℕ)) (nunits : UInt32) (p : ℕ) (σ : Heap) : Prop :=
  (p = 0 ∧ ∃ F, Inv base F A σ) ∨ ∃ a F, p = a + HDR ∧ Inv base F ((a, nunits.toNat) :: A) σ

theorem takeFrom_spec {prevp : ℕ} (h : Inv base F A σ) (hpos : 0 < nunits.toNat)
    (hprev : prevp ∈ ((base, 0) :: F).map Prod.fst) (hle : nunits ≤ (σ.mem (σ.mem prevp).ptr).size) :
    wp (takeFrom nunits prevp (σ.mem prevp).ptr) (Taken base A nunits) (fun _ => False) σ := by
  have hsize := UInt32.le_iff_toNat_le.mp hle
  obtain ⟨L, pr, x, R, rfl, hx, hG⟩ := h.follow hprev (hpos.trans_le hsize)
  rw [← hx] at hle ⊢
  simp only [takeFrom, load, setPtr, setSize, setFreep, wp_bind, wp_get, wp_pure, wp_modify, wp_ite]
  constructor
  · intro heq
    obtain ⟨F', hF'⟩ := h.takeAll hG hpos heq
    exact .inr ⟨x.1, F', rfl, hF'⟩
  · intro hne
    have hlt : nunits < (σ.mem x.1).size := UInt32.lt_of_le_of_ne hle (Ne.symm hne)
    obtain ⟨F', hF'⟩ := h.takeTail hG hpos hlt
    refine .inr ⟨_, F', rfl, ?_⟩
    rw [Function.update_of_ne (a := x.1 + ((σ.mem x.1).size - nunits).toNat * HDR)]
    · exact hF'
    · have := UInt32.lt_iff_toNat_lt.mp hlt
      rw [UInt32.toNat_sub_of_le _ _ hle, HDR]
      omega

section Search

variable {Q : ℕ → Heap → Prop} {E : Stop → Prop} {d k : ℕ}

/-- A pass over the ring. From `prevp` it goes over `l` to `freep`: a block is taken on the way, or every block is too small and
`morecore` is asked. -/
theorem search_spec (l0 : List ℕ)
    (htake : ∀ q ∈ σ.freep :: l0, nunits ≤ (σ.mem (σ.mem q).ptr).size → wp (takeFrom nunits q (σ.mem q).ptr) Q E σ)
    (hmore : (∀ q ∈ σ.freep :: l0, (σ.mem q).size < nunits) → ∀ k, wp (do
      let p ← morecore answer nunits
      if p = 0 then return 0 else search answer nunits (k + d) p (← load p).ptr) Q E σ) :
    ∀ l prevp k, Chain (fun a => (σ.mem a).ptr) (prevp :: l) σ.freep → prevp :: l <:+ σ.freep :: l0 → σ.freep ∉ l →
      (∀ q ∈ l0, q ∈ l ∨ (σ.mem q).size < nunits) → l.length + d < k →
      wp (search answer nunits k prevp (l.head?.getD σ.freep)) Q E σ := by
  intro l
  induction l with
  | nil =>
    intro prevp k hc hs _ hsmall hk
    obtain ⟨k, rfl⟩ : ∃ k', k = k' + d + 1 := ⟨k - d - 1, by rw [List.length_nil] at hk; omega⟩
    have hptr : (σ.mem prevp).ptr = σ.freep := hc.1
    have htake' := htake prevp (hs.subset List.mem_cons_self)
    rw [hptr] at htake'
    simp only [search, load, wp_bind, wp_get, wp_pure, wp_ite, List.head?_nil, Option.getD_none]
    refine ⟨htake', fun hlt => ⟨fun _ => ?_, fun hne => absurd trivial hne⟩⟩
    have := hmore (fun q hq => ?_) k
    · simpa only [load, wp_bind, wp_get, wp_pure, wp_ite] using this
    · rcases List.mem_cons.mp hq with rfl | hq
      · exact UInt32.not_le.mp hlt
      · exact (hsmall q hq).resolve_left List.not_mem_nil
  | cons a l ih =>
    intro prevp k hc hs hfreep hsmall hk
    obtain ⟨k, rfl⟩ := Nat.exists_eq_succ_of_ne_zero (Nat.ne_zero_of_lt hk)
    have hptr : (σ.mem prevp).ptr = a := hc.1
    have htake' := htake prevp (hs.subset List.mem_cons_self)
    rw [hptr] at htake'
    have hnext : (σ.mem a).ptr = l.head?.getD σ.freep := hc.2.1
    have hne : a ≠ σ.freep := fun he => hfreep (he ▸ List.mem_cons_self)
    rw [List.head?_cons, Option.getD_some]
    simp only [search, load, wp_bind, wp_get, wp_pure, wp_ite]
    refine ⟨htake', fun hlt => ⟨fun he => absurd he hne, fun _ => ?_⟩⟩
    rw [hnext]
    apply ih a k hc.2 ((List.suffix_cons prevp _).trans hs) (fun hin => hfreep (List.mem_cons_of_mem a hin))
    · intro q hq
      rcases hsmall q hq with hin | hq
      · rcases List.mem_cons.mp hin with rfl | hin
        · exact .inr (UInt32.not_le.mp hlt)
        · exact .inl hin
      · exact .inr hq
    · rw [List.length_cons] at hk
      omega

/-- A whole pass, which starts behind `freep`. -/
theorem Inv.search (h : Inv base F A σ) (hpos : 0 < nunits.toNat)
    (hmore : (∀ x ∈ F, x.2 < nunits.toNat) → ∀ k, wp (do
      let p ← morecore answer nunits
      if p = 0 then return 0 else Umalloc.search answer nunits (k + d) p (← load p).ptr)
        (Taken base A nunits) (fun _ => False) σ)
    (hk : F.length + d < k) :
    wp (Umalloc.search answer nunits k σ.freep (σ.mem σ.freep).ptr) (Taken base A nunits) (fun _ => False) σ := by
  obtain ⟨r, hr, hperm⟩ := Chain.rotate h.ring.chain h.freep
  have hnd : (σ.freep :: r).Nodup := by
    refine hperm.nodup_iff.mpr (h.nodup.sublist ?_)
    exact ((List.sublist_append_left F A).cons_cons (base, 0)).map Prod.fst
  have hlen := hperm.length_eq
  simp only [List.length_cons, List.length_map] at hlen
  have hptr : (σ.mem σ.freep).ptr = r.head?.getD σ.freep := hr.1
  rw [hptr]
  apply search_spec (d := d) r ?_ ?_ r σ.freep k hr (List.suffix_refl _) (List.nodup_cons.mp hnd).1
    (fun q hq => .inl hq) (by omega)
  · intro q hq hle
    exact takeFrom_spec h hpos (hperm.mem_iff.mp hq) hle
  · intro hsmall
    apply hmore
    intro x hx
    have hin : x.1 ∈ σ.freep :: r := hperm.mem_iff.mpr (List.mem_map_of_mem (List.mem_cons_of_mem _ hx))
    rw [← h.ring.size x (List.mem_cons_of_mem _ hx)]
    exact UInt32.lt_iff_toNat_lt.mp (hsmall x.1 hin)

end Search

section More

/-- `sbrk` gives less than `2 ^ 32` units in all. -/
def Bounded (answer : Sbrk) : Prop :=
  ∀ k rs n gap, answer k rs n = some gap → (rs.map Prod.snd).sum + n / HDR < 2 ^ 32

variable {gap n k : ℕ}

/-- A new region is a block in use until it is freed. -/
theorem Inv.region (h : Inv base F A σ) (hn : 0 < n) (htotal : (σ.regions.map Prod.snd).sum + n < 2 ^ 32) {nu : UInt32}
    (hnu : nu.toNat = n) :
    Inv base F ((σ.top + gap, n) :: A)
      { { σ with calls := k, top := σ.top + gap + n * HDR, regions := σ.regions ++ [(σ.top + gap, n)] }.put (σ.top + gap)
        { σ.mem (σ.top + gap) with size := nu } with freep := σ.freep } := by
  have hne : ∀ y ∈ (base, 0) :: (F ++ A), y.1 ≠ σ.top + gap := by
    intro y hy
    rcases List.mem_cons.mp hy with rfl | hy
    · have := h.low
      rw [HDR] at this
      dsimp only
      omega
    · have h1 := (h.within hy).2
      have h2 := h.pos y hy
      rw [blockEnd, HDR] at h1
      omega
  refine ⟨?_, h.freep, ?_, ?_, ?_, ?_, ?_, ?_, ?_⟩
  · refine h.ring.congr fun y hy => Heap.put_of_ne (hne y ?_) ..
    rcases List.mem_cons.mp hy with rfl | hy
    · exact List.mem_cons_self
    · exact List.mem_cons_of_mem _ (List.mem_append_left A hy)
  · intro y hy
    rcases List.mem_cons.mp hy with rfl | hy
    · have := Heap.put_self σ (σ.top + gap) { σ.mem (σ.top + gap) with size := nu }
      exact (congrArg (·.size.toNat) this).trans hnu
    · have hin : y ∈ (base, 0) :: (F ++ A) := List.mem_cons_of_mem _ (List.mem_append_right F hy)
      have := Heap.put_of_ne (hne y hin) σ { σ.mem (σ.top + gap) with size := nu }
      exact (congrArg (·.size.toNat) this).trans (h.used y hy)
  · intro y hy
    rcases List.mem_append.mp hy with hy | hy
    · exact h.pos y (List.mem_append_left A hy)
    · rcases List.mem_cons.mp hy with rfl | hy
      · exact hn
      · exact h.pos y (List.mem_append_right F hy)
  · have hcut := h.cut
    rw [List.flatMap_append] at hcut
    change ((F ++ (σ.top + gap, n) :: A).flatMap (units HDR)).Perm ((σ.regions ++ [(σ.top + gap, n)]).flatMap (units HDR))
    rw [List.flatMap_append, List.flatMap_append, List.flatMap_cons, List.flatMap_singleton]
    refine List.Perm.trans ?_ (hcut.append_right _)
    rw [List.append_assoc]
    exact .append_left _ List.perm_append_comm
  · refine List.pairwise_append.mpr ⟨h.ascend, List.pairwise_singleton .., fun y hy z hz => ?_⟩
    obtain rfl := List.mem_singleton.mp hz
    exact (h.bounds y hy).2.trans (Nat.le_add_right _ _)
  · intro r hr
    rcases List.mem_append.mp hr with hr | hr
    · refine ⟨(h.bounds r hr).1, (h.bounds r hr).2.trans ?_⟩
      change σ.top ≤ σ.top + gap + n * HDR
      omega
    · obtain rfl := List.mem_singleton.mp hr
      exact ⟨h.low.trans (Nat.le_add_right _ _), le_rfl⟩
  · have := h.low
    change base + HDR ≤ σ.top + gap + n * HDR
    omega
  · change ((σ.regions ++ [(σ.top + gap, n)]).map Prod.snd).sum < 2 ^ 32
    rw [List.map_append, List.sum_append, List.map_singleton, List.sum_singleton]
    exact htotal

theorem Inv.base_le_freep (h : Inv base F A σ) : base ≤ σ.freep := by
  obtain ⟨y, hy, he⟩ := List.mem_map.mp h.freep
  rw [← he]
  rcases List.mem_cons.mp hy with rfl | hy
  · exact le_rfl
  · have := (h.within (List.mem_append_left A hy)).1
    omega

/-- `morecore` asks for 4096 units at least. -/
theorem atLeast_spec {nu : UInt32} (hnu : nunits.toNat < 2 ^ 27) (hn : (if nunits < 4096 then 4096 else nunits) = nu) :
    nunits.toNat ≤ nu.toNat ∧ 0 < nu.toNat ∧ nu.toNat < 2 ^ 27 := by
  rw [← hn]
  split_ifs with hlt
  · have := UInt32.lt_iff_toNat_lt.mp hlt
    exact ⟨this.le, by decide, by decide⟩
  · have := UInt32.le_iff_toNat_le.mp (UInt32.not_lt.mp hlt)
    exact ⟨le_rfl, Nat.lt_of_lt_of_le (by decide) this, hnu⟩

/-- The bytes of less than `2 ^ 27` units are an `int`. -/
theorem toInt_bytes {nu : UInt32} (h : nu.toNat < 2 ^ 27) :
    (BitVec.ofNat 32 (nu.toNat * HDR)).toInt = ((nu.toNat * HDR : ℕ) : ℤ) := by
  have hlt : nu.toNat * HDR < 2 ^ 31 := by
    rw [HDR]
    omega
  rw [BitVec.toInt_eq_toNat_of_lt, BitVec.toNat_ofNat, Nat.mod_eq_of_lt (by omega)]
  rw [BitVec.toNat_ofNat, Nat.mod_eq_of_lt (by omega)]
  omega

theorem morecore_spec (h : Inv base F A σ) (hbase : 0 < base) (hanswer : Bounded answer) (hnu : nunits.toNat < 2 ^ 27) :
    wp (morecore answer nunits) (fun p σ' => (p = 0 ∧ ∃ F', Inv base F' A σ') ∨ (p = σ'.freep ∧ p ≠ 0 ∧
      ∃ F', Inv base F' A σ' ∧ F'.length ≤ F.length + 1 ∧ ∃ y ∈ F', nunits.toNat ≤ y.2)) (fun _ => False) σ := by
  simp only [morecore]
  generalize hn : (if nunits < 4096 then 4096 else nunits) = nu
  have hle := atLeast_spec hnu hn
  have hint := toInt_bytes hle.2.2
  have hdiv : nu.toNat * HDR / HDR = nu.toNat := Nat.mul_div_cancel _ (by decide)
  simp only [hint, wp_bind, sbrk, wp_get, wp_ite, Int.toNat_natCast, hdiv]
  refine ⟨fun hneg => absurd hneg (by omega), fun _ => ?_⟩
  cases ha : answer σ.calls σ.regions (nu.toNat * HDR) with
  | none =>
    simp only [wp_bind, wp_set, wp_pure]
    have hring : Segment base ((base, 0) :: F) { σ with calls := σ.calls + 1 } := ⟨h.ring.chain, h.ring.size, h.ring.apart⟩
    exact .inl ⟨trivial, F, ⟨hring, h.freep, h.used, h.pos, h.cut, h.ascend, h.bounds, h.low, h.total⟩⟩
  | some gap =>
    have htotal := hanswer _ _ _ _ ha
    rw [hdiv] at htotal
    simp only [wp_bind, wp_set, wp_pure, setSize, wp_modify]
    apply wp_mono (free_spec (h.region hle.2.1 htotal rfl)) _ fun _ => id
    rintro _ σ' ⟨F', hF', hlen, y, hy, hyle⟩
    simp only [wp_get]
    have hfreep := hF'.base_le_freep
    exact .inr ⟨trivial, by omega, F', hF', hlen, y, hy, hle.1.trans hyle⟩

end More

section Calls

theorem nunitsOf_spec {nbytes : UInt32} (h : nbytes.toNat < 2 ^ 31 - 64) :
    0 < (nunitsOf nbytes).toNat ∧ (nunitsOf nbytes).toNat < 2 ^ 27 ∧ nbytes.toNat ≤ ((nunitsOf nbytes).toNat - 1) * HDR := by
  have hval : (nunitsOf nbytes).toNat = (nbytes.toNat + HDR - 1) / HDR + 1 := by
    rw [nunitsOf, UInt32.toNat_ofNat', Nat.mod_eq_of_lt]
    rw [HDR]
    omega
  rw [hval, HDR]
  omega

/-- Before the first call of `malloc` there is no ring. -/
def Ready (base : ℕ) (A : List (ℕ × ℕ)) (σ : Heap) : Prop :=
  (σ.freep = 0 ∧ A = [] ∧ σ.regions = [] ∧ base + HDR ≤ σ.top) ∨ ∃ F, Inv base F A σ

/-- The ring of the first call. -/
theorem inv_start (hregions : σ.regions = []) (htop : base + HDR ≤ σ.top) (hmem : σ.mem base = ⟨base, 0⟩)
    (hfreep : σ.freep = base) : Inv base [] [] σ where
  ring := by
    refine ⟨⟨?_, trivial⟩, fun y hy => ?_, List.pairwise_singleton ..⟩
    · exact congrArg Header.ptr hmem
    · obtain rfl := List.mem_singleton.mp hy
      exact congrArg (·.size.toNat) hmem
  freep := hfreep ▸ List.mem_cons_self
  used := nofun
  pos := nofun
  cut := by
    rw [hregions]
    exact .refl _
  ascend := hregions ▸ .nil
  bounds := hregions ▸ nofun
  low := htop
  total := by rw [hregions]; decide

theorem malloc_spec {nbytes : UInt32} (h : Ready base A σ) (hbase : 0 < base) (hanswer : Bounded answer)
    (hn : nbytes.toNat < 2 ^ 31 - 64) :
    wp (malloc base answer nbytes) (Taken base A (nunitsOf nbytes)) (fun _ => False) σ := by
  obtain ⟨hpos, hlt, -⟩ := nunitsOf_spec hn
  -- with a ring, one pass, and one more if nothing has been found
  have hring : ∀ F σ, Inv base F A σ → wp (search answer (nunitsOf nbytes) (2 * (σ.top + 2)) σ.freep (σ.mem σ.freep).ptr)
      (Taken base A (nunitsOf nbytes)) (fun _ => False) σ := by
    intro F σ h
    have hlen := h.length_le
    rw [List.length_map, List.length_cons] at hlen
    apply h.search (d := σ.top + 2) hpos _ (by omega)
    intro _ k
    simp only [wp_bind]
    apply wp_mono (morecore_spec h hbase hanswer hlt) _ fun _ => id
    rintro p σ' (⟨rfl, hF'⟩ | ⟨rfl, hp, F', hF', hlen', y, hy, hyle⟩)
    · simp only [wp_ite, wp_pure]
      exact ⟨fun _ => .inl ⟨rfl, hF'⟩, fun hne => absurd trivial hne⟩
    · simp only [wp_ite, wp_pure, load, wp_bind, wp_get]
      refine ⟨fun hz => absurd hz hp, fun _ => hF'.search (d := 0) hpos (fun hall => ?_) (by omega)⟩
      exact absurd (hall y hy) (by omega)
  simp only [malloc, load, setFreep, setPtr, setSize, wp_bind, wp_get, wp_ite, wp_pure, wp_modify]
  rcases h with ⟨hfreep, rfl, hregions, htop⟩ | ⟨F, h⟩
  · refine ⟨fun _ => ?_, fun hne => absurd hfreep hne⟩
    refine hring [] _ (inv_start hregions htop ?_ rfl)
    dsimp only
    rw [Function.update_self, Function.update_self]
  · refine ⟨fun hz => ?_, fun _ => hring F σ h⟩
    have := h.base_le_freep
    omega

end Calls

end Xv6.Umalloc
