import Xv6.Sanity.Malloc

/-! Whatever a program allocates and frees, the ring of `malloc` is in order, and its blocks and those in use are what `sbrk` has
given. Sizes are 32 bits wide, so this needs `sbrk` to give less than `2 ^ 32` units in all. -/

namespace Xv6.Umalloc

open Wp Links Blocks Machine

/-- The pointer and the length that the program has, for a block. -/
def Fits (r x : ℕ × ℕ) : Prop := r.1 = x.1 + HDR ∧ r.1 + r.2 ≤ blockEnd HDR x

/-- The free blocks `F`, in the order of the ring, and the block `A` behind each live pointer. -/
structure Sound (base : ℕ) (F A : List (ℕ × ℕ)) (σ : Client) : Prop where
  ring : Chain (fun a => (σ.heap.mem a).ptr) (base :: F.map Prod.fst) base
  freep : σ.heap.freep ∈ base :: F.map Prod.fst
  apart : ((base, 0) :: F).Pairwise Apart
  size : ∀ x ∈ F ++ A, (σ.heap.mem x.1).size.toNat = x.2
  disjoint : (F ++ A).Pairwise (Off HDR)
  live : List.Forall₂ Fits σ.live A
  inside : ∀ x ∈ F ++ A, ∀ u ∈ units HDR x, u ∈ σ.heap.regions.flatMap (units HDR)
  exact : ((F ++ A).flatMap (units HDR)).Perm (σ.heap.regions.flatMap (units HDR))

variable {base : ℕ} {F A : List (ℕ × ℕ)} {σ σ' : Client} {answer : Sbrk} {mem : ℕ → Header} {act : Act}

def Good (base : ℕ) (σ : Client) : Prop := ∃ F A, Inv base F A σ.heap ∧ List.Forall₂ Fits σ.live A

theorem Good.sound (h : Good base σ) : ∃ F A, Sound base F A σ := by
  obtain ⟨F, A, hinv, hlive⟩ := h
  refine ⟨F, A, hinv.ring.chain, hinv.freep, hinv.ring.apart, fun x hx => ?_, hinv.off, hlive, fun x hx u hu => ?_, hinv.cut⟩
  · rcases List.mem_append.mp hx with hx | hx
    · exact hinv.ring.size x (List.mem_cons_of_mem _ hx)
    · exact hinv.used x hx
  · exact hinv.cut.mem_iff.mp (List.mem_flatMap.mpr ⟨x, hx, hu⟩)

section Steps

/-- The block behind one of the pointers. -/
theorem fits_middle {l1 l2 : List (ℕ × ℕ)} {r : ℕ × ℕ} : ∀ {A}, List.Forall₂ Fits (l1 ++ r :: l2) A →
    ∃ x A', A.Perm (x :: A') ∧ Fits r x ∧ List.Forall₂ Fits (l1 ++ l2) A' := by
  induction l1 with
  | nil =>
    intro A h
    cases h with
    | @cons _ x _ A' hx hA => exact ⟨x, A', .refl _, hx, hA⟩
  | cons b l1 ih =>
    intro A h
    cases h with
    | @cons _ y _ A' hy hA =>
      obtain ⟨x, A'', hp, hx, hA''⟩ := ih hA
      exact ⟨x, y :: A'', (hp.cons y).trans (.swap ..), hx, .cons hy hA''⟩

/-- What the program writes is not a header. -/
theorem Inv.write {x : ℕ} {hdr : Header} {τ : Heap} (h : Inv base F A τ) (hne : ∀ y ∈ (base, 0) :: (F ++ A), y.1 ≠ x) :
    Inv base F A (τ.put x hdr) where
  ring := by
    refine h.ring.congr fun y hy => Heap.put_of_ne (hne y ?_) ..
    rcases List.mem_cons.mp hy with rfl | hy
    · exact List.mem_cons_self
    · exact List.mem_cons_of_mem _ (List.mem_append_left A hy)
  freep := h.freep
  used y hy := by
    rw [Heap.put_of_ne (hne y (List.mem_cons_of_mem _ (List.mem_append_right F hy)))]
    exact h.used y hy
  pos := h.pos
  cut := h.cut
  ascend := h.ascend
  bounds := h.bounds
  low := h.low
  total := h.total

theorem malloc_step (hbase : 0 < base) (hanswer : Bounded answer) {nbytes : UInt32} (hn : nbytes.toNat < 2 ^ 31 - 64)
    (hready : Ready base A σ.heap) (hlive : List.Forall₂ Fits σ.live A) :
    ∃ σ', step base answer (.malloc nbytes) σ = .ok σ' ∧ Good base σ' := by
  obtain ⟨p, τ, hm, htaken⟩ := wp_returns (malloc_spec hready hbase hanswer hn)
  have hs : step base answer (.malloc nbytes) σ = .ok ⟨τ, if p = 0 then σ.live else (p, nbytes.toNat) :: σ.live⟩ := by
    rw [step, hm, ended]
  refine ⟨_, hs, ?_⟩
  rcases htaken with ⟨rfl, F, hF⟩ | ⟨a, F, rfl, hF⟩
  · exact ⟨F, A, hF, hlive⟩
  · have hne : a + HDR ≠ 0 := by
      rw [HDR]
      omega
    refine ⟨F, (a, (nunitsOf nbytes).toNat) :: A, hF, ?_⟩
    dsimp only
    rw [if_neg hne]
    refine .cons ⟨rfl, ?_⟩ hlive
    obtain ⟨hpos, -, hle⟩ := nunitsOf_spec hn
    rw [blockEnd]
    dsimp only
    rw [Nat.sub_mul, Nat.one_mul] at hle
    have := Nat.mul_le_mul_right HDR hpos
    rw [HDR] at *
    omega

theorem free_step {ap : ℕ} (h : Good base σ) (hproper : Proper σ (.free ap)) :
    ∃ σ', step base answer (.free ap) σ = .ok σ' ∧ Good base σ' := by
  obtain ⟨F, A, hinv, hlive⟩ := h
  obtain ⟨r, hr, hap⟩ := hproper
  obtain ⟨r, l1, l2, -, hap, hl, herase⟩ :=
    List.exists_of_eraseP (p := fun r : ℕ × ℕ => decide (r.1 = ap)) hr (decide_eq_true hap)
  obtain rfl : r.1 = ap := of_decide_eq_true hap
  rw [hl] at hlive
  obtain ⟨x, A', hp, hx, hA'⟩ := fits_middle hlive
  obtain ⟨_, τ, hm, F', hF', -⟩ := wp_returns (free_spec (hinv.perm hp))
  rw [← hx.1] at hm
  have hs : step base answer (.free r.1) σ = .ok ⟨τ, l1 ++ l2⟩ := by
    rw [step, hm, ended, herase]
  exact ⟨_, hs, F', A', hF', hA'⟩

theorem write_step {x : ℕ} {hdr : Header} (h : Good base σ) (hproper : Proper σ (.write x hdr)) :
    ∃ σ', step base answer (.write x hdr) σ = .ok σ' ∧ Good base σ' := by
  obtain ⟨F, A, hinv, hlive⟩ := h
  obtain ⟨r, hr, hlo, hhi⟩ := hproper
  refine ⟨_, rfl, F, A, hinv.write ?_, hlive⟩
  obtain ⟨l1, l2, hl⟩ := List.append_of_mem hr
  rw [hl] at hlive
  obtain ⟨b, A', hp, hb, -⟩ := fits_middle hlive
  have hbA : b ∈ F ++ A := List.mem_append_right F (hp.mem_iff.mpr List.mem_cons_self)
  refine hinv.inside hbA ?_ ?_
  · rw [hb.1] at hlo
    omega
  · exact hhi.trans_le hb.2

/-- The program has not called `malloc`, or there is a ring. -/
theorem step_good (hbase : 0 < base) (hanswer : Bounded answer) (h : σ = boot base mem ∨ Good base σ) (hproper : Proper σ act) :
    ∃ σ', step base answer act σ = .ok σ' ∧ Good base σ' := by
  rcases h with rfl | h
  · cases act with
    | malloc nbytes => exact malloc_step hbase hanswer hproper (.inl ⟨rfl, rfl, rfl, le_rfl⟩) .nil
    | free ap =>
      obtain ⟨r, hr, -⟩ := hproper
      cases hr
    | write x hdr =>
      obtain ⟨r, hr, -⟩ := hproper
      cases hr
  · cases act with
    | malloc nbytes =>
      obtain ⟨F, A, hinv, hlive⟩ := h
      exact malloc_step hbase hanswer hproper (.inr ⟨F, hinv⟩) hlive
    | free ap => exact free_step h hproper
    | write x hdr => exact write_step h hproper

end Steps

/-- In every state that a program can reach the heap is in order, and every call returns. -/
theorem malloc_heap_in_order (hbase : 0 < base) (hanswer : Bounded answer) {acts : List Act}
    (hrun : Run (step base answer) Proper (boot base mem) acts σ) :
    (σ = boot base mem ∨ ∃ F A, Sound base F A σ) ∧ ∀ act, Proper σ act → ∃ σ', step base answer act σ = .ok σ' := by
  have hgood : σ = boot base mem ∨ Good base σ := by
    refine hrun.inv (I := fun σ => σ = boot base mem ∨ Good base σ) (.inl rfl) fun t a u ht ha hu => ?_
    obtain ⟨σ', hσ', hgood⟩ := step_good hbase hanswer ht ha
    rw [hu] at hσ'
    obtain rfl := Outcome.ok.inj hσ'
    exact .inr hgood
  refine ⟨hgood.imp_right Good.sound, fun act hact => ?_⟩
  obtain ⟨σ', hσ', -⟩ := step_good hbase hanswer hgood hact
  exact ⟨σ', hσ'⟩

section Wrap

/-- More than `2 ^ 32` units, one region after the other. -/
def endless : Sbrk := fun _ _ _ => some 0

/-- The largest request. -/
def largest : UInt32 := 2147483583

/-- As many blocks as come to more than `2 ^ 32` units. -/
def wrapping : List Act :=
  List.replicate 33 (.malloc largest) ++ (List.range 33).map fun i => .free (1032 + i * ((nunitsOf largest).toNat * HDR))

instance (σ : Client) : DecidablePred (Proper σ) := fun act =>
  match act with
  | .malloc nbytes => inferInstanceAs (Decidable (nbytes.toNat < 2 ^ 31 - 64))
  | .free ap => inferInstanceAs (Decidable (∃ r ∈ σ.live, r.1 = ap))
  | .write x _ => inferInstanceAs (Decidable (∃ r ∈ σ.live, r.1 < x + HDR ∧ x < r.1 + r.2))

/-- Everything is freed, and the one free block is smaller than what `sbrk` has given. -/
def Wrapped (σ : Client) : Prop :=
  σ.heap.freep ≠ 0 ∧ σ.live = [] ∧ σ.heap.mem 1000 = ⟨1016, 0⟩ ∧ σ.heap.mem 1016 = ⟨1000, 134217629⟩ ∧
    (σ.heap.regions.map Prod.snd).sum ≠ 134217629

instance (σ : Client) : Decidable (Wrapped σ) := inferInstanceAs (Decidable (_ ∧ _ ∧ _ ∧ _ ∧ _))

theorem Wrapped.not_sound (h : Wrapped σ) : ¬ ∃ F A, Sound 1000 F A σ := by
  obtain ⟨-, hlive, hbase, hfirst, hsum⟩ := h
  rintro ⟨F, A, hs⟩
  have hA := hs.live
  rw [hlive] at hA
  cases hA
  have hring := hs.ring
  have hexact := sum_of_cut hs.exact
  rw [List.append_nil] at hexact
  -- the ring is `base` and one block
  cases F with
  | nil =>
    have := hring.1
    simp [hbase] at this
  | cons x F =>
    obtain ⟨hx, hrest⟩ := hring
    have hx1 : x.1 = 1016 := by
      simpa [hbase] using hx.symm
    cases F with
    | nil =>
      have hsize := hs.size x (by simp)
      rw [hx1, hfirst] at hsize
      have hsize' : x.2 = 134217629 := hsize.symm
      rw [List.map_singleton, List.sum_singleton, hsize'] at hexact
      exact hsum hexact.symm
    | cons y F =>
      have hy : y.1 = 1000 := by
        have hnext : (σ.heap.mem x.1).ptr = y.1 := hrest.1
        rw [hx1, hfirst] at hnext
        exact hnext.symm
      have hap := (List.pairwise_cons.mp hs.apart).1 y (by simp)
      rw [Apart, blockEnd, hy] at hap
      omega

theorem wrapping_wraps :
    (execIf (step 1000 endless) (fun σ a => decide (Proper σ a)) wrapping (boot 1000 fun _ => ⟨0, 0⟩)).Sat Wrapped := by
  decide +kernel

/-- A heap of more than `2 ^ 32` units, where sizes wrap around. -/
theorem malloc_heap_wraps : ∃ acts σ, Run (step 1000 endless) Proper (boot 1000 fun _ => ⟨0, 0⟩) acts σ ∧
    σ.heap.freep ≠ 0 ∧ ¬ ∃ F A, Sound 1000 F A σ := by
  obtain ⟨σ, hσ, hw⟩ := wrapping_wraps.ok
  exact ⟨_, σ, (run_of_execIf hσ).mono fun _ _ => of_decide_eq_true, hw.1, hw.not_sound⟩

end Wrap

/-- `sbrk` that gives one region only. -/
def once : Sbrk := fun _ rs n => if rs = [] ∧ n / HDR < 2 ^ 32 then some 0 else none

theorem bounded_once : Bounded once := by
  intro k rs n gap h
  unfold once at h
  split_ifs at h with hif
  rw [hif.1]
  exact (Nat.zero_add _).trans_lt hif.2

/-- A block is allocated and freed. -/
theorem malloc_heap_in_order_once : ∃ σ,
    Run (step 1000 once) Proper (boot 1000 fun _ => ⟨0, 0⟩) [.malloc 100, .malloc 50, .free 66360] σ ∧
    σ.live.length = 1 ∧ (σ = (boot 1000 fun _ => ⟨0, 0⟩) ∨ ∃ F A, Sound 1000 F A σ) ∧
    ∀ act, Proper σ act → ∃ σ', step 1000 once act σ = .ok σ' := by
  have hexec : (execIf (step 1000 once) (fun σ a => decide (Proper σ a)) [.malloc 100, .malloc 50, .free 66360]
      (boot 1000 fun _ => ⟨0, 0⟩)).Sat fun σ => σ.live.length = 1 := by
    decide +kernel
  obtain ⟨σ, hσ, hlen⟩ := hexec.ok
  have hrun : Run (step 1000 once) Proper (boot 1000 fun _ => ⟨0, 0⟩) [.malloc 100, .malloc 50, .free 66360] σ :=
    (run_of_execIf hσ).mono fun _ _ => of_decide_eq_true
  exact ⟨σ, hrun, hlen, malloc_heap_in_order (by decide) bounded_once hrun⟩

end Xv6.Umalloc
