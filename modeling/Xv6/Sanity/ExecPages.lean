import Xv6.Sanity.NewTables

/-! What is in the pages of an address space that is being built, and that nothing else is written. -/

namespace Xv6.Vm

open Wp Forest

variable {K : Kernel} {roots pend : Set ℕ} {s s' t : Mem} {r c va vpn : ℕ}

section Spared

theorem procFreepagetable_onlyFreed (sz : ℕ) :
    wp (procFreepagetable K r sz) (fun _ s' => OnlyFreed s s') (fun _ => True) s := by
  simp only [procFreepagetable, wp_bind]
  refine wp_mono (uvmunmap_onlyFreed 1 false) (fun _ s1 h1 => ?_) fun _ => id
  refine wp_mono (uvmunmap_onlyFreed 1 false) (fun _ s2 h2 => ?_) fun _ => id
  exact wp_mono (uvmfree_onlyFreed sz) (fun _ s3 h3 => (h1.trans h2).trans h3) fun _ => id

theorem procPagetable_spared (trapframe : ℕ) :
    wp (procPagetable K trapframe) (fun _ s' => Spared s s') (fun _ => True) s := by
  simp only [procPagetable, uvmcreate, wp_bind]
  refine wp_mono kalloc_free (fun res s1 h1 => ?_) fun _ => id
  cases res with
  | none => exact ⟨s1, h1.1, .refl s1⟩
  | some c =>
    simp only [wp_bind, wp_memset, wp_pure]
    have h2 := h1.1.memset (h1.2.2 c rfl).1 (filled 0) fun _ => UInt8.ofNat 0
    refine wp_mono (mappages_onlyFree _ _ _) (fun ok s3 h3 => ?_) fun _ => id
    have h3 := h2.trans h3
    simp only [wp_ite, wp_bind, wp_pure]
    refine ⟨fun _ => wp_mono (mappages_onlyFree _ _ _) (fun ok s4 h4 => ⟨fun _ => ?_, fun _ => ?_⟩) fun _ => id, fun _ => ?_⟩
    · exact ⟨s4, h3.trans h4, .refl s4⟩
    · refine wp_mono (uvmunmap_onlyFreed 1 false) (fun _ s5 h5 => ?_) fun _ => id
      exact wp_mono (uvmfree_onlyFreed 0) (fun _ s6 h6 => ⟨s4, h3.trans h4, h5.trans h6⟩) fun _ => id
    · exact wp_mono (uvmfree_onlyFreed 0) (fun _ s4 h4 => ⟨s3, h3, h4⟩) fun _ => id

/-- To the allocator, every page that is not free is held by somebody. -/
theorem Pages.all_held (h : Pages K roots pend s) : Pages K ∅ {pa | pa ∈ area K ∧ pa ∉ s.freelist} s := by
  have hval : ∀ x, val (nextOf s.mem) ∅ counts x = none := fun x => if_neg fun hx => hx.1
  refine ⟨⟨fun hx => ?_, fun hx => ?_, fun hb hm => .inl ⟨hb, by simpa using hm⟩, fun hb => ⟨hb.1, by simpa using hb.2⟩⟩, h.nodup,
    h.free, fun r hr => hr.elim⟩
  all_goals rw [hval] at hx; cases hx

/-- The pages that are not held are free. -/
theorem Pages.free_iff (h : Pages K ∅ pend s) (hc : c ∈ area K) : c ∈ s.freelist ↔ c ∉ pend := by
  refine ⟨fun hf hp => h.held_notMem hp hf, fun hp => ?_⟩
  by_contra hf
  rcases h.owned.cover hc (decide_eq_true hf) with hin | ⟨x, hx⟩
  · exact hp hin
  · exact (val_some.mp hx).1.1

end Spared

section Image

/-- `img` with `bytes` at address `a`. -/
def overlay (img : ℕ → Option UInt8) (a : ℕ) (bytes : List UInt8) : ℕ → Option UInt8 :=
  fun x => if a ≤ x ∧ x < a + bytes.length then bytes[x - a]? else img x

variable {img : ℕ → Option UInt8} {n v off sz : ℕ} {bytes : List UInt8} {e : Pte} {trapframe : ℕ}

theorem overlay_nil (img : ℕ → Option UInt8) (a : ℕ) : overlay img a [] = img := by
  funext x
  exact if_neg fun h => absurd (h.2.trans_le (Nat.add_zero a).le) (Nat.not_lt.mpr h.1)

theorem overlay_append (img : ℕ → Option UInt8) (a : ℕ) (bs cs : List UInt8) :
    overlay (overlay img a bs) (a + bs.length) cs = overlay img a (bs ++ cs) := by
  funext x
  simp only [overlay, List.length_append]
  by_cases h1 : a + bs.length ≤ x
  · by_cases h2 : x < a + bs.length + cs.length
    · rw [if_pos ⟨h1, h2⟩, if_pos ⟨by omega, by omega⟩, List.getElem?_append_right (by omega)]
      congr 1
      omega
    · rw [if_neg fun h => h2 h.2, if_neg fun h => absurd h.2 (by omega), if_neg fun h => absurd h.2 (by omega)]
  · rw [if_neg fun h => h1 h.1]
    by_cases h0 : a ≤ x
    · rw [if_pos ⟨h0, by omega⟩, if_pos ⟨h0, by omega⟩, List.getElem?_append_left (by omega)]
    · rw [if_neg fun h => h0 h.1, if_neg fun h => h0 h.1]

theorem overlay_below (img : ℕ → Option UInt8) {a x : ℕ} (h : x < a) (bytes : List UInt8) : overlay img a bytes x = img x :=
  if_neg fun hx => absurd hx.1 (Nat.not_le.mpr h)

/-- The first `n` pages of `r` hold `img`, which ends there, and zeroes where it has nothing. -/
structure Carries (s : Mem) (r n : ℕ) (img : ℕ → Option UInt8) : Prop where
  byte : ∀ v < n, ∀ e, leaf s.mem r v = some e → ∀ o < PGSIZE, s.data e.pa o = (img (v * PGSIZE + o)).getD 0
  above : ∀ a, n * PGSIZE ≤ a → img a = none

/-- Since `s` only the address space `r` has been worked on, and this is what is in it. -/
structure Imaged (K : Kernel) (roots pend : Set ℕ) (r n : ℕ) (img : ℕ → Option UInt8) (s t : Mem) : Prop where
  pages : Pages K roots pend t
  but : SameBut roots r s t
  held : ∀ c ∈ pend, t.data c = s.data c
  carries : Carries t r n img

/-- Whatever is in the pages is an image. -/
theorem Pages.imaged (h : Pages K roots pend s) (r n : ℕ) : ∃ img, Imaged K roots pend r n img s s := by
  refine ⟨fun a => if a < n * PGSIZE then (leaf s.mem r (a / PGSIZE)).map fun e => s.data e.pa (a % PGSIZE) else none,
    h, .refl _ _, fun _ _ => rfl, fun v hv e he o ho => ?_, fun a ha => if_neg (Nat.not_lt.mpr ha)⟩
  have hlt : v * PGSIZE + o < n * PGSIZE := by
    have := Nat.mul_le_mul_right PGSIZE hv
    rw [Nat.succ_mul] at this
    omega
  have hdiv : (v * PGSIZE + o) / PGSIZE = v ∧ (v * PGSIZE + o) % PGSIZE = o := by
    simp only [PGSIZE] at ho ⊢
    omega
  rw [if_pos hlt, hdiv.1, hdiv.2, he]
  rfl

/-- Bytes go to a page. -/
theorem Imaged.store (h : Imaged K roots pend r n img s t) (hr : r ∈ roots) (hn : n ≤ UPAGES) (hv : v < n)
    (he : leaf t.mem r v = some e) (off : ℕ) (bytes : List UInt8) :
    Imaged K roots pend r n (overlay img (v * PGSIZE + off) (bytes.take (PGSIZE - off))) s
      { t with data := Function.update t.data e.pa (splice (t.data e.pa) off bytes) } := by
  have hvu := hv.trans_le hn
  have hk := h.pages.poked hr hvu he (splice (t.data e.pa) off bytes)
  refine ⟨hk.pages h.pages, h.but.trans hk.but, fun c hc => ?_, fun w hw d hd o ho => ?_, fun a ha => ?_⟩
  · have hne : c ≠ e.pa := by
      rintro rfl
      exact (h.pages.user hr hvu he).2.2 hc
    exact (Function.update_of_ne hne _ _).trans (h.held c hc)
  · have hold := h.carries.byte w hw d hd o ho
    have hlen : (bytes.take (PGSIZE - off)).length = min (PGSIZE - off) bytes.length := List.length_take
    by_cases hwv : w = v
    · subst hwv
      obtain rfl : e = d := Option.some.inj (he.symm.trans hd)
      simp only [Function.update_self, splice, overlay, hlen]
      by_cases ho1 : o < off
      · rw [if_pos ho1, if_neg (by omega)]
        exact hold
      · rw [if_neg ho1]
        by_cases ho2 : o - off < bytes.length
        · rw [if_pos (by omega), show w * PGSIZE + o - (w * PGSIZE + off) = o - off by omega,
            List.getElem?_take_of_lt (by omega), List.getElem?_eq_getElem ho2]
          rfl
        · rw [if_neg (by omega), List.getElem?_eq_none (by omega)]
          exact hold
    · have hne : d.pa ≠ e.pa := fun heq => hwv (h.pages.page_inj hr (hw.trans_le hn) hd hr hvu he heq).2
      have hout : ¬ (v * PGSIZE + off ≤ w * PGSIZE + o ∧
          w * PGSIZE + o < v * PGSIZE + off + (bytes.take (PGSIZE - off)).length) := by
        rw [hlen]
        simp only [PGSIZE] at ho ⊢
        omega
      simp only [Function.update_of_ne hne, overlay, if_neg hout]
      exact hold
  · have hmul := Nat.mul_le_mul_right PGSIZE hv
    rw [Nat.succ_mul] at hmul
    have hlen : (bytes.take (PGSIZE - off)).length ≤ PGSIZE - off := List.length_take_le ..
    by_cases hpos : (bytes.take (PGSIZE - off)).length = 0
    · rw [List.eq_nil_of_length_eq_zero hpos, overlay_nil]
      exact h.carries.above a ha
    · rw [overlay, if_neg (by omega)]
      exact h.carries.above a ha

/-- The address space grows by zeroes. -/
theorem uvmalloc_image {newsz : ℕ} {xperm : Bool × Bool} (h : Imaged K roots pend r (npages sz) img s t) (hr : r ∈ roots)
    (hb : Built K trapframe (leaf t.mem r) sz) : wp (uvmalloc K r sz newsz xperm) (fun res t' =>
      (res = 0 ∧ Imaged K roots pend r (npages sz) img s t' ∧ Built K trapframe (leaf t'.mem r) sz) ∨
      (res ≠ 0 ∧ res = max sz newsz ∧ Imaged K roots pend r (npages res) img s t' ∧ Built K trapframe (leaf t'.mem r) res ∧
        ∀ v, npages sz ≤ v → v < npages res → ∃ pa, leaf t'.mem r v = some ⟨true, ⟨true, xperm.1, xperm.2, true⟩, pa⟩))
      never t := by
  have hnone : ∀ v, npages sz ≤ v → v < UPAGES → leaf t.mem r v = none := fun v hv hu => by
    rw [hb.above v hv, kernelLeaves_user K trapframe hu]
  have htf : leaf t.mem r UPAGES ≠ none := by
    rw [hb.above UPAGES (npages_le hb.le), kernelLeaves, Function.update_self]
    simp
  refine wp_mono (uvmalloc_spec h.pages hr hb.le hnone htf) (fun res t' h' => ?_) fun _ he => hb.overrun hr he
  obtain ⟨hp, hbut, hspared, hspec⟩ := h'
  have hheld : ∀ c ∈ pend, t'.data c = s.data c := fun c hc => (hspared.held h.pages hp c hc).trans (h.held c hc)
  -- the pages that were there before
  have hold : ∀ v < npages sz, ∀ e, leaf t'.mem r v = some e → leaf t.mem r v = some e → ∀ o < PGSIZE,
      t'.data e.pa o = (img (v * PGSIZE + o)).getD 0 := fun v hv e he' he o ho => by
    have hvu := hv.trans_le (npages_le hb.le)
    rw [hspared.data (h.pages.user hr hvu he).2.1 (hp.user hr hvu he').2.1]
    exact h.carries.byte v hv e he o ho
  have hsame : leaf t'.mem r = leaf t.mem r → Imaged K roots pend r (npages sz) img s t' := fun hl =>
    ⟨hp, h.but.trans hbut, hheld, fun v hv e he => hold v hv e he (hl ▸ he), h.carries.above⟩
  by_cases hr0 : res = 0
  · subst hr0
    rcases hspec with ⟨hz0, hlt, hl⟩ | ⟨-, hl⟩ | ⟨hz0, hle, -, hfill⟩
    · exact .inl ⟨rfl, hsame hl, by rw [hl]; exact hb⟩
    · exact .inl ⟨rfl, hsame hl, by rw [hl]; exact hb⟩
    · have hl : leaf t'.mem r = leaf t.mem r := funext fun v => hfill.1.outside v (by
        have := npages_mono hle
        rw [← hz0] at *
        simp only [npages, PGSIZE] at *
        omega)
      exact .inl ⟨rfl, hsame hl, by rw [hl]; exact hb⟩
  · right
    rcases hspec with ⟨rfl, hlt, hl⟩ | ⟨hz0, -⟩ | ⟨rfl, hle, htop, hfill, hz⟩
    · exact ⟨hr0, (Nat.max_eq_left hlt.le).symm, hsame hl, by rwa [hl], fun v h1 h2 => by omega⟩
    · exact absurd hz0 hr0
    · refine ⟨hr0, (Nat.max_eq_right hle).symm, ⟨hp, h.but.trans hbut, hheld, fun v hv e he o ho => ?_, fun a ha => ?_⟩,
        hb.grow hle htop rfl hfill, hfill.inside⟩
      · by_cases hlow : v < npages sz
        · exact hold v hlow e he (by rw [← hfill.outside v (by omega)]; exact he) o ho
        · rw [hz v (by omega) hv e he o, h.carries.above _ ?_]
          · rfl
          · have := Nat.mul_le_mul_right PGSIZE (Nat.not_lt.mp hlow)
            omega
      · exact h.carries.above a ((Nat.mul_le_mul_right PGSIZE (npages_mono hle)).trans ha)

/-- The pages that an interval of addresses lies in are mapped, for the user and writable. -/
def Writable (t : Mem) (r n lo hi : ℕ) : Prop := ∀ v, lo / PGSIZE ≤ v → v * PGSIZE < hi → v < n ∧
  ∃ e, leaf t.mem r v = some e ∧ e.perm.u = true ∧ e.perm.w = true

theorem Writable.mono {lo hi lo' hi' : ℕ} (h : Writable t r n lo hi) (hlo : lo ≤ lo') (hhi : hi' ≤ hi) : Writable t r n lo' hi' :=
  fun v h1 h2 => h v ((Nat.div_le_div_right hlo).trans h1) (h2.trans_le hhi)

theorem Writable.congr {lo hi : ℕ} (h : Writable t r n lo hi) (hm : s'.mem = t.mem) : Writable s' r n lo hi := by
  intro v h1 h2
  rw [hm]
  exact h v h1 h2

/-- Copying to memory that is there succeeds. -/
theorem copyoutFrom_image {ppagetable psz : ℕ} (hr : r ∈ roots) (hn : n ≤ UPAGES) (fuel dstva : ℕ) (src : List UInt8)
    (hfuel : src.length ≤ fuel) (h : Imaged K roots pend r n img s t) (hw : Writable t r n dstva (dstva + src.length)) :
    wp (copyoutFrom K ppagetable psz r fuel dstva src) (fun ok t' => ok = true ∧ t'.mem = t.mem ∧
      Imaged K roots pend r n (overlay img dstva src) s t') never t := by
  induction fuel generalizing dstva src t img with
  | zero =>
    obtain rfl := List.eq_nil_of_length_eq_zero (Nat.le_zero.mp hfuel)
    rw [overlay_nil]
    exact ⟨rfl, rfl, h⟩
  | succ fuel ih =>
    simp only [copyoutFrom, wp_ite, wp_pure, wp_bind]
    refine ⟨fun hnil => ?_, fun hsrc => ?_⟩
    · subst hnil
      rw [overlay_nil]
      exact ⟨trivial, trivial, h⟩
    have hlen : 0 < src.length := List.length_pos_iff.mpr hsrc
    have hdown : pgRoundDown dstva / PGSIZE = dstva / PGSIZE := Nat.mul_div_cancel _ (by decide)
    have hle : pgRoundDown dstva ≤ dstva := Nat.div_mul_le_self _ _
    have hlt : dstva < pgRoundDown dstva + PGSIZE := by
      simp only [pgRoundDown, PGSIZE]
      omega
    obtain ⟨hvn, e, he, hu, hwr⟩ := hw (dstva / PGSIZE) le_rfl (hle.trans_lt (by omega))
    have hva : pgRoundDown dstva < MAXVA := va_lt (by omega)
    refine ⟨fun hmax => absurd hva (Nat.not_lt.mpr hmax), fun _ => ?_⟩
    have he' : leaf t.mem r (pgRoundDown dstva / PGSIZE) = some e := by rw [hdown]; exact he
    simp only [userPage, wp_bind]
    refine wp_imp (walkaddr_mapped hva he' hu) fun res s1 hres => ?_
    obtain ⟨hs1, rfl⟩ := hres
    subst s1
    simp only [wp_pure, wp_bind]
    refine wp_imp (walk_false r hva) fun res s1 hres => ?_
    obtain ⟨hs1, rfl⟩ := hres
    subst s1
    cases hslot : slotAt t.mem r (pgRoundDown dstva / PGSIZE) with
    | none =>
      rw [leaf_of_none hslot] at he'
      cases he'
    | some loc =>
      have hpte : t.mem loc.1 loc.2 = e := by
        rw [leaf_of_slot (page_lt hva) hslot] at he'
        split_ifs at he'
        exact Option.some.inj he'
      simp only [wp_bind, wp_readPte, wp_ite, wp_pure, wp_memmove, hpte, hwr, Bool.not_true, Bool.false_eq_true,
        false_implies, true_and, not_false_eq_true, true_implies]
      set k := PGSIZE - (dstva - pgRoundDown dstva) with hk
      have hstore := h.store hr hn hvn he (dstva - pgRoundDown dstva) (src.take k)
      rw [← hk, List.take_take, Nat.min_self, ← pgRoundDown, Nat.add_sub_cancel' hle] at hstore
      refine wp_imp (ih _ _ (by rw [List.length_drop]; omega) hstore ?_) fun ok t' h' => ?_
      · rw [List.length_drop]
        by_cases hshort : src.length ≤ k
        · intro v h1 h2
          rw [pgRoundDown, ← Nat.succ_mul, Nat.mul_div_cancel _ (by decide : 0 < PGSIZE)] at h1
          have h1 := Nat.mul_le_mul_right PGSIZE h1
          rw [Nat.succ_mul, ← pgRoundDown] at h1
          omega
        · exact (hw.mono (by omega) (by omega)).congr rfl
      · refine ⟨h'.1, h'.2.1, ?_⟩
        have heq : overlay (overlay img dstva (src.take k)) (pgRoundDown dstva + PGSIZE) (src.drop k) = overlay img dstva src := by
          by_cases hshort : src.length ≤ k
          · rw [List.drop_eq_nil_of_le hshort, overlay_nil, List.take_of_length_le hshort]
          · have hlast : pgRoundDown dstva + PGSIZE = dstva + (src.take k).length := by
              rw [List.length_take, Nat.min_eq_left (by omega)]
              omega
            rw [hlast, overlay_append, List.take_append_drop]
        rw [← heq]
        exact h'.2.2

theorem loadSegments_spec (phs : List Segment) (sz : ℕ) (h : Pages K roots pend s) (hr : r ∈ roots)
    (hb : Built K trapframe (leaf s.mem r) sz) :
    wp (loadSegments K r phs sz) (fun res s' => Pages K roots pend s' ∧ SameBut roots r s s' ∧
      Built K trapframe (leaf s'.mem r) res.2) never s := by
  induction phs generalizing sz s with
  | nil => exact ⟨h, .refl _ _, hb⟩
  | cons ph phs ih =>
    have hsame : Pages K roots pend s ∧ SameBut roots r s s ∧ Built K trapframe (leaf s.mem r) sz := ⟨h, .refl _ _, hb⟩
    simp only [loadSegments, wp_ite, wp_pure]
    refine ⟨fun _ => hsame, fun _ => ⟨fun _ => ih sz h hb, fun _ => ⟨fun _ => hsame, fun hmem => ⟨fun _ => hsame, fun hov =>
      ⟨fun _ => hsame, fun hal => ?_⟩⟩⟩⟩⟩
    simp only [wp_bind]
    obtain ⟨img, himg⟩ := h.imaged r (npages sz)
    refine wp_imp (uvmalloc_image himg hr hb) fun sz1 s1 h1 => ?_
    rcases h1 with ⟨rfl, himg1, hb1⟩ | ⟨hpos, hsz1, himg1, hb1, -⟩
    · exact ⟨himg1.pages, himg1.but, hb1⟩
    · have h1 := himg1.pages
      have hbut1 := himg1.but
      simp only [wp_ite, wp_pure]
      refine ⟨fun hz => absurd hz hpos, fun _ => ?_⟩
      simp only [wp_bind, loadseg]
      refine wp_imp (loadFrom_spec h1 hr _ 0 fun j _ hj => ?_) fun ok s2 hs2 => ?_
      · have hsum := toNat_add_of_not_lt hov
        have hfile : ph.filesz.toNat % 2 ^ 32 ≤ ph.memsz.toNat := by
          have hle : ph.filesz.toNat ≤ ph.memsz.toNat := by
            rw [BitVec.lt_def] at hmem
            omega
          exact (Nat.mod_le _ _).trans hle
        have hin : ph.vaddr.toNat + j * PGSIZE < sz1 := by
          rw [hsum] at hsz1
          have hj' : j * PGSIZE < ph.filesz.toNat % 2 ^ 32 := by
            simp only [PGSIZE] at hj ⊢
            omega
          omega
        refine ⟨hin.trans_le hb1.le, hb1.mapped _ ?_⟩
        simp only [npages, PGSIZE] at hin ⊢
        omega
      · have hbut2 := hbut1.trans hs2.but
        have hb2 : Built K trapframe (leaf s2.mem r) sz1 := by
          rw [hs2.mem]
          exact hb1
        cases ok with
        | true =>
          simp only [if_true]
          exact wp_imp (ih sz1 (hs2.pages h1) hb2) fun res s3 h3 => ⟨h3.1, hbut2.trans h3.2.1, h3.2.2⟩
        | false => exact ⟨hs2.pages h1, hbut2, hb2⟩

end Image

section Stack

variable {img : ℕ → Option UInt8} {n sz stackbase top : ℕ} {trapframe : ℕ}

/-- Where the arguments go, from `sp` down. -/
def argPtrs : ℕ → List (List UInt8) → List ℕ
  | _, [] => []
  | sp, arg :: argv => pushSp sp (arg.length + 1) :: argPtrs (pushSp sp (arg.length + 1)) argv

theorem length_argPtrs (sp : ℕ) (argv : List (List UInt8)) : (argPtrs sp argv).length = argv.length := by
  induction argv generalizing sp with
  | nil => rfl
  | cons arg argv ih => rw [argPtrs, List.length_cons, ih, List.length_cons]

/-- The stack pointer below the arguments. -/
def argEnd : ℕ → List (List UInt8) → ℕ
  | sp, [] => sp
  | sp, arg :: argv => argEnd (pushSp sp (arg.length + 1)) argv

/-- Memory with the arguments. -/
def argImage : (ℕ → Option UInt8) → ℕ → List (List UInt8) → ℕ → Option UInt8
  | img, _, [] => img
  | img, sp, arg :: argv => argImage (overlay img (pushSp sp (arg.length + 1)) (arg ++ [0])) (pushSp sp (arg.length + 1)) argv

/-- A string that is longer than what is below the stack pointer goes to no address at all. -/
theorem pushSp_wrap {sp k : ℕ} (hk : sp < k) (hmax : k ≤ 2 ^ 31) : MAXVA ≤ pgRoundDown (pushSp sp k) := by
  have hmod : (sp + 2 ^ 64 - k) % 2 ^ 64 = sp + 2 ^ 64 - k := Nat.mod_eq_of_lt (by omega)
  have hva : MAXVA = 2 ^ 38 := by decide
  rw [pushSp, hmod, hva, pgRoundDown]
  simp only [PGSIZE]
  omega

theorem pushArgs_image {ppagetable psz : ℕ} (hr : r ∈ roots) (hn : n ≤ UPAGES) (hbase : PGSIZE ≤ stackbase) (htop : top ≤ TRAPFRAME)
    (argv : List (List UInt8)) (ustack : List ℕ) (sp : ℕ) (hargv : ∀ arg ∈ argv, arg.length < 2 ^ 31)
    (h : Imaged K roots pend r n img s t) (hw : Writable t r n stackbase top) (hlo : stackbase ≤ sp) (hhi : sp ≤ top)
    (hargc : ustack.length ≤ MAXARG) : wp (pushArgs K ppagetable psz r stackbase argv ustack sp) (fun res t' => t'.mem = t.mem ∧
      ((res = none ∧ (∃ img', Imaged K roots pend r n img' s t') ∧
        (ustack.length + argv.length ≤ MAXARG → (∀ arg ∈ argv, arg.length < PGSIZE) → ∃ ptr ∈ argPtrs sp argv, ptr < stackbase)) ∨
      (res = some (argEnd sp argv, ustack ++ argPtrs sp argv) ∧ Imaged K roots pend r n (argImage img sp argv) s t' ∧
        ustack.length + argv.length ≤ MAXARG ∧ stackbase ≤ argEnd sp argv ∧ argEnd sp argv ≤ top ∧
        ∀ ptr ∈ argPtrs sp argv, stackbase ≤ ptr))) never t := by
  induction argv generalizing ustack sp t img with
  | nil =>
    refine ⟨rfl, .inr ⟨by rw [argPtrs, List.append_nil]; rfl, h, hargc, hlo, hhi, ?_⟩⟩
    simp [argPtrs]
  | cons arg argv ih =>
    have hlen := hargv arg List.mem_cons_self
    simp only [pushArgs, wp_ite, wp_pure, wp_bind, argPtrs, argEnd, argImage, List.length_cons]
    refine ⟨fun hmany => ⟨trivial, .inl ⟨trivial, ⟨img, h⟩, fun _ => by omega⟩⟩, fun hfew => ⟨fun hbelow => ?_, fun hge => ?_⟩⟩
    · exact ⟨trivial, .inl ⟨trivial, ⟨img, h⟩, fun _ _ => ⟨_, List.mem_cons_self, hbelow⟩⟩⟩
    by_cases hfit : arg.length + 1 ≤ sp
    swap
    · have hcons : (arg ++ [(0 : UInt8)]).length = arg.length + 1 := by rw [List.length_append, List.length_singleton]
      have hne : arg ++ [(0 : UInt8)] ≠ [] := List.append_ne_nil_of_right_ne_nil _ (List.cons_ne_nil _ _)
      have hva := pushSp_wrap (Nat.not_le.mp hfit) hlen
      simp only [copyout, hcons, copyoutFrom, if_neg hne, if_pos hva, wp_pure]
      refine ⟨fun hf => absurd hf Bool.false_ne_true, fun _ => ⟨trivial, .inl ⟨trivial, ⟨img, h⟩, fun _ hshort => ?_⟩⟩⟩
      have := hshort arg List.mem_cons_self
      omega
    have hpush : pushSp sp (arg.length + 1) + (arg.length + 1) ≤ sp := pushSp_spec hfit (hhi.trans_lt (htop.trans_lt (by decide)))
    have hw' : Writable t r n (pushSp sp (arg.length + 1)) (pushSp sp (arg.length + 1) + (arg ++ [0]).length) := by
      refine hw.mono (Nat.not_lt.mp hge) ?_
      rw [List.length_append, List.length_singleton]
      omega
    refine wp_imp (copyoutFrom_image hr hn _ _ _ le_rfl h hw') fun ok t1 h1 => ?_
    obtain ⟨rfl, hm1, h1⟩ := h1
    refine ⟨fun _ => ?_, fun hf => absurd rfl hf⟩
    refine wp_imp (ih (ustack ++ [pushSp sp (arg.length + 1)]) _ (fun l hl => hargv l (List.mem_cons_of_mem _ hl)) h1 (hw.congr hm1)
      (Nat.not_lt.mp hge) (by omega) (by rw [List.length_append, List.length_singleton]; omega)) fun res t2 h2 => ?_
    obtain ⟨hm2, hcase⟩ := h2
    rw [List.length_append, List.length_singleton, List.append_assoc, List.singleton_append] at hcase
    refine ⟨hm2.trans hm1, ?_⟩
    rcases hcase with ⟨rfl, himg, hfail⟩ | ⟨rfl, himg, hcount, hlo2, hhi2, hall⟩
    · refine .inl ⟨rfl, himg, fun hc hshort => ?_⟩
      obtain ⟨ptr, hin, hlt⟩ := hfail (by omega) fun l hl => hshort l (List.mem_cons_of_mem _ hl)
      exact ⟨ptr, List.mem_cons_of_mem _ hin, hlt⟩
    · refine .inr ⟨rfl, himg, by omega, hlo2, hhi2, fun ptr hin => ?_⟩
      rcases List.mem_cons.mp hin with rfl | hin
      · exact Nat.not_lt.mp hge
      · exact hall ptr hin

/-- A page that is taken from the user keeps its bytes. -/
theorem uvmclear_image {pte : Pte} (h : Imaged K roots pend r n img s t) (hr : r ∈ roots) (hva : vpn < UPAGES)
    (hl : leaf t.mem r vpn = some pte) : wp (uvmclear r (vpn * PGSIZE)) (fun _ t' => Imaged K roots pend r n img s t' ∧
      leaf t'.mem r = Function.update (leaf t.mem r) vpn (some { pte with perm := { pte.perm with u := false } })) never t := by
  refine wp_imp (uvmclear_spec h.pages hr hva hl) fun _ t' h' => ?_
  obtain ⟨hp, hbut, hdata, hleaf⟩ := h'
  refine ⟨⟨hp, h.but.trans hbut, fun c hc => by rw [hdata]; exact h.held c hc, fun v hv e he o ho => ?_, h.carries.above⟩, hleaf⟩
  rw [hdata]
  rw [hleaf] at he
  by_cases hvv : v = vpn
  · subst hvv
    rw [Function.update_self] at he
    cases he
    exact h.carries.byte v hv pte hl o ho
  · rw [Function.update_of_ne hvv] at he
    exact h.carries.byte v hv e he o ho

/-- The stack pointer that the program starts with. -/
def stackSp (top : ℕ) (argv : List (List UInt8)) : ℕ := pushSp (argEnd top argv) ((argv.length + 1) * 8)

/-- Memory with the arguments and the pointers to them. -/
def stackImage (img : ℕ → Option UInt8) (top : ℕ) (argv : List (List UInt8)) : ℕ → Option UInt8 :=
  overlay (argImage img top argv) (stackSp top argv) ((argPtrs top argv ++ [0]).flatMap (leBytes 8))

/-- Nothing goes below the stack. -/
def FitsStack (stackbase top : ℕ) (argv : List (List UInt8)) : Prop :=
  (∀ ptr ∈ argPtrs top argv, stackbase ≤ ptr) ∧ stackbase ≤ stackSp top argv

/-- What is below all the strings is not touched. -/
theorem argImage_below (img : ℕ → Option UInt8) (sp : ℕ) (argv : List (List UInt8)) {a : ℕ}
    (h : ∀ ptr ∈ argPtrs sp argv, a < ptr) : argImage img sp argv a = img a := by
  induction argv generalizing img sp with
  | nil => rfl
  | cons arg argv ih =>
    rw [argImage, ih _ _ fun ptr hp => h ptr (List.mem_cons_of_mem _ hp)]
    exact overlay_below img (h _ List.mem_cons_self) _

theorem stackImage_below (img : ℕ → Option UInt8) {stackbase top : ℕ} {argv : List (List UInt8)} {a : ℕ}
    (h : FitsStack stackbase top argv) (ha : a < stackbase) : stackImage img top argv a = img a := by
  rw [stackImage, overlay_below _ (ha.trans_le h.2)]
  exact argImage_below img top argv fun ptr hp => ha.trans_le (h.1 ptr hp)

/-- `n` pages of program, the guard page and the stack. -/
structure Stacked (f : ℕ → Option Pte) (n : ℕ) : Prop where
  program : ∀ v < n, ∃ e, f v = some e ∧ e.perm.u = true
  guard : ∃ e, f n = some e ∧ e.perm.u = false
  stack : ∀ v, n < v → v ≤ n + USERSTACK → ∃ e, f v = some e ∧ e.perm.u = true ∧ e.perm.w = true

theorem Stacked.writable {lo hi : ℕ} (h : Stacked (leaf t.mem r) n) (hlo : lo = (n + 1) * PGSIZE)
    (hhi : hi = (n + (USERSTACK + 1)) * PGSIZE) : Writable t r (n + (USERSTACK + 1)) lo hi := by
  intro v h1 h2
  rw [hlo, Nat.mul_div_cancel _ (by decide : 0 < PGSIZE)] at h1
  rw [hhi] at h2
  have hv : v < n + (USERSTACK + 1) := lt_of_mul_lt_mul_right h2 (Nat.zero_le _)
  exact ⟨hv, h.stack v (by omega) (by omega)⟩

/-- The guard page and the pages of the stack, at the next page boundary. -/
theorem uvmalloc_stack (h : Imaged K roots pend r (npages sz) img s t) (hr : r ∈ roots) (hb : Built K trapframe (leaf t.mem r) sz) :
    wp (uvmalloc K r (pgRoundUp sz) (pgRoundUp sz + (USERSTACK + 1) * PGSIZE) (true, false)) (fun res t' =>
      (res = 0 ∧ Imaged K roots pend r (npages (pgRoundUp sz)) img s t' ∧ Built K trapframe (leaf t'.mem r) (pgRoundUp sz)) ∨
      (res ≠ 0 ∧ res = (npages sz + (USERSTACK + 1)) * PGSIZE ∧ Imaged K roots pend r (npages res) img s t' ∧
        Built K trapframe (leaf t'.mem r) res ∧
        ∀ v, npages sz ≤ v → v < npages res → ∃ pa, leaf t'.mem r v = some ⟨true, ⟨true, true, false, true⟩, pa⟩)) never t := by
  rw [pgRoundUp_eq (hb.le.trans trapframe_eq.2)]
  have h0 : Imaged K roots pend r (npages (npages sz * PGSIZE)) img s t := by rw [npages_mul]; exact h
  have hb0 : Built K trapframe (leaf t.mem r) (npages sz * PGSIZE) := by
    refine ⟨npages_le_iff.mp (by rw [npages_mul]; exact npages_le hb.le), ?_, ?_⟩
    · rw [npages_mul]
      exact hb.mapped
    · rw [npages_mul]
      exact hb.above
  refine wp_imp (uvmalloc_image h0 hr hb0) fun res t' h' => ?_
  rcases h' with hnone | ⟨hpos, hres, himg, hb', hnew⟩
  · exact .inl hnone
  · rw [Nat.max_eq_right (Nat.le_add_right _ _), ← Nat.add_mul] at hres
    rw [npages_mul] at hnew
    exact .inr ⟨hpos, hres, himg, hb', hnew⟩

/-- The stack above the program. It can fail for want of memory, and because the arguments do not fit. -/
theorem buildStack_image {ppagetable psz : ℕ} {argv : List (List UInt8)} (h : Imaged K roots pend r (npages sz) img s t)
    (hr : r ∈ roots) (hb : Built K trapframe (leaf t.mem r) sz) (hargv : ∀ arg ∈ argv, arg.length < 2 ^ 31) :
    wp (buildStack K ppagetable psz r sz argv) (fun res t' => res.2 ≤ TRAPFRAME ∧
      (∀ v, npages res.2 ≤ v → leaf t'.mem r v = kernelLeaves K trapframe v) ∧
      ((res.1 = none ∧ (∃ img', Imaged K roots pend r (npages res.2) img' s t') ∧
        ∀ sz1 m1, uvmalloc K r (pgRoundUp sz) (pgRoundUp sz + (USERSTACK + 1) * PGSIZE) (true, false) t = .ok (sz1, m1) →
          sz1 ≠ 0 → argv.length ≤ MAXARG → (∀ arg ∈ argv, arg.length < PGSIZE) → ¬ FitsStack (sz1 - USERSTACK * PGSIZE) sz1 argv) ∨
      (res.1 = some (stackSp res.2 argv) ∧ res.2 = (npages sz + (USERSTACK + 1)) * PGSIZE ∧
        Imaged K roots pend r (npages res.2) (stackImage img res.2 argv) s t' ∧ Stacked (leaf t'.mem r) (npages sz) ∧
        FitsStack (res.2 - USERSTACK * PGSIZE) res.2 argv))) never t := by
  have hround := pgRoundUp_eq (hb.le.trans trapframe_eq.2)
  simp only [buildStack, wp_bind]
  refine wp_mono (wp_and (uvmalloc_stack h hr hb) wp_run) (fun sz1 t1 h1 => ?_) fun _ he => he.1
  rw [hround] at h1 ⊢
  obtain ⟨⟨rfl, h1, hb1⟩ | ⟨hpos, hsz1, h1, hb1, hnew⟩, hrun⟩ := h1
  · -- no memory
    refine ⟨hb1.le, hb1.above, .inl ⟨rfl, ⟨img, h1⟩, fun sz2 m2 h2 hne => absurd ?_ hne⟩⟩
    rw [hrun] at h2
    cases h2
    rfl
  have hpages : npages sz1 = npages sz + (USERSTACK + 1) := by rw [hsz1, npages_mul]
  have hguard : sz1 - (USERSTACK + 1) * PGSIZE = npages sz * PGSIZE := by
    rw [hsz1, Nat.add_mul, Nat.add_sub_cancel]
  have hbase : sz1 - USERSTACK * PGSIZE = (npages sz + 1) * PGSIZE := by
    rw [hsz1]
    simp only [USERSTACK, PGSIZE]
    omega
  have hle := npages_le hb1.le
  obtain ⟨pa, hpa⟩ := hnew (npages sz) le_rfl (by omega)
  simp only [if_neg hpos, hguard, hbase, wp_bind]
  refine wp_imp (uvmclear_image h1 hr (by omega) hpa) fun _ t2 h2 => ?_
  obtain ⟨h2, hleaf2⟩ := h2
  have hst : Stacked (leaf t2.mem r) (npages sz) := by
    rw [hleaf2]
    refine ⟨fun v hv => ?_, ⟨_, Function.update_self .., rfl⟩, fun v hlo hhi => ?_⟩
    · rw [Function.update_of_ne (by omega)]
      exact hb1.mapped v (by omega)
    · obtain ⟨pb, hpb⟩ := hnew v (by omega) (by omega)
      rw [Function.update_of_ne (by omega)]
      exact ⟨_, hpb, rfl, rfl⟩
  have habove : ∀ v, npages sz1 ≤ v → leaf t2.mem r v = kernelLeaves K trapframe v := fun v hv => by
    rw [hleaf2, Function.update_of_ne (by omega)]
    exact hb1.above v hv
  have hw : Writable t2 r (npages sz1) ((npages sz + 1) * PGSIZE) sz1 := by
    rw [hpages]
    exact hst.writable rfl hsz1
  have hlow : PGSIZE ≤ (npages sz + 1) * PGSIZE := Nat.le_mul_of_pos_left _ (Nat.succ_pos _)
  have htop : (npages sz + 1) * PGSIZE ≤ sz1 := by
    rw [hsz1]
    exact Nat.mul_le_mul_right _ (by simp only [USERSTACK]; omega)
  have honly : ∀ {sz2 m2}, uvmalloc K r (npages sz * PGSIZE) (npages sz * PGSIZE + (USERSTACK + 1) * PGSIZE) (true, false) t =
      .ok (sz2, m2) → sz2 = sz1 := fun h2 => by
    rw [hrun] at h2
    cases h2
    rfl
  refine wp_imp (pushArgs_image hr hle hlow hb1.le argv [] sz1 hargv h2 hw htop le_rfl (Nat.zero_le _)) fun res t3 h3 => ?_
  rw [List.length_nil, Nat.zero_add, List.nil_append] at h3
  obtain ⟨hm3, ⟨rfl, himg, hfail⟩ | ⟨rfl, h3, hmany, hlo3, hhi3, hall⟩⟩ := h3
  · refine ⟨hb1.le, by rw [hm3]; exact habove, .inl ⟨rfl, himg, fun sz2 m2 hrun2 _ hargc hshort hfit => ?_⟩⟩
    obtain ⟨ptr, hin, hlt⟩ := hfail hargc hshort
    rw [honly hrun2, hbase] at hfit
    exact absurd (hfit.1 ptr hin) (Nat.not_le.mpr hlt)
  have hmax : argEnd sz1 argv < 2 ^ 64 := (hhi3.trans hb1.le).trans_lt (by decide)
  have hbytes : (argv.length + 1) * 8 ≤ argEnd sz1 argv := by
    have : MAXARG = 32 := rfl
    simp only [PGSIZE] at hlow hlo3
    omega
  have hpush := pushSp_spec hbytes hmax
  have hustack : ((argPtrs sz1 argv ++ [0]).flatMap (leBytes 8)).length = (argv.length + 1) * 8 := by
    rw [length_flatMap_leBytes, List.length_append, length_argPtrs]
    rfl
  simp only [wp_ite, wp_pure, wp_bind]
  refine ⟨fun hbelow => ?_, fun hge => ?_⟩
  · refine ⟨hb1.le, by rw [hm3]; exact habove, .inl ⟨trivial, ⟨_, h3⟩, fun sz2 m2 hrun2 _ _ _ hfit => ?_⟩⟩
    rw [honly hrun2, hbase] at hfit
    exact absurd hfit.2 (Nat.not_le.mpr hbelow)
  have hw3 : Writable t3 r (npages sz1) (stackSp sz1 argv)
      (stackSp sz1 argv + ((argPtrs sz1 argv ++ [0]).flatMap (leBytes 8)).length) := by
    refine (hw.congr hm3).mono (Nat.not_lt.mp hge) ?_
    rw [hustack, stackSp]
    omega
  refine wp_imp (copyoutFrom_image hr hle _ _ _ le_rfl h3 hw3) fun ok t4 h4 => ?_
  obtain ⟨rfl, hm4, h4⟩ := h4
  refine ⟨fun _ => ⟨hb1.le, by rw [hm4, hm3]; exact habove, .inr ⟨rfl, hsz1, h4, by rw [hm4, hm3]; exact hst, ?_⟩⟩, fun hf => absurd rfl hf⟩
  rw [hbase]
  exact ⟨hall, Nat.not_lt.mp hge⟩

/-- Whether or not it succeeds, all that is mapped then is below the size returned. -/
theorem buildStack_spec {ppagetable psz : ℕ} {argv : List (List UInt8)} (h : Pages K roots pend s) (hr : r ∈ roots)
    (hb : Built K trapframe (leaf s.mem r) sz) (hargv : ∀ arg ∈ argv, arg.length < PGSIZE) :
    wp (buildStack K ppagetable psz r sz argv) (fun res s' => Pages K roots pend s' ∧ SameBut roots r s s' ∧
      res.2 ≤ TRAPFRAME ∧ ∀ v, npages res.2 ≤ v → leaf s'.mem r v = kernelLeaves K trapframe v) never s := by
  obtain ⟨img, himg⟩ := h.imaged r (npages sz)
  refine wp_imp (buildStack_image himg hr hb fun arg harg => (hargv arg harg).trans (by decide)) fun res s' hs' => ?_
  obtain ⟨hle, habove, ⟨-, ⟨img', h'⟩, -⟩ | ⟨-, -, h', -⟩⟩ := hs'
  · exact ⟨h'.pages, h'.but, hle, habove⟩
  · exact ⟨h'.pages, h'.but, hle, habove⟩

end Stack

end Xv6.Vm
