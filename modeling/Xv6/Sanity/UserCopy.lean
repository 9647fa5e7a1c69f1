import Xv6.Sanity.ExecPages

/-! `copyout` and `copyin` page by page: when they succeed, what they copy, and what they leave as it is. -/

namespace Xv6.Vm

open Wp Forest

variable {K : Kernel} {roots pend : Set ℕ} {s s' s'' : Mem} {r c f v w n sz a len : ℕ} {V : Finset ℕ} {ok : Perm → Bool} {e : Pte}

section Read

/-- The byte at `va` of a page that `e` maps for the user, or a zero of a page that is not there yet. -/
def pageByte (m : Mem) (sz va : ℕ) : Option Pte → Option UInt8
  | some e => if e.perm.u then some (m.data e.pa (va % PGSIZE)) else none
  | none => if pgRoundDown va < sz then some 0 else none

/-- The byte that `copyin` reads at `va`. -/
def userByte (m : Mem) (r sz va : ℕ) : Option UInt8 :=
  if MAXVA ≤ va then none else pageByte m sz va (leaf m.mem r (va / PGSIZE))

/-- The kernel's pages are not for the user. -/
def KernelOnly (f : ℕ → Option Pte) : Prop := ∀ v, UPAGES ≤ v → ∀ e, f v = some e → e.perm.u = false

theorem kernelLeaves_some {v : ℕ} {e : Pte} (h : kernelLeaves K f v = some e) :
    e.perm.u = false ∧ ((v = UPAGES ∧ e.pa = f) ∨ (v = UPAGES + 1 ∧ e.pa ∉ area K)) := by
  unfold kernelLeaves at h
  by_cases h0 : v = UPAGES
  · subst h0
    rw [Function.update_self] at h
    cases h
    exact ⟨rfl, .inl ⟨rfl, rfl⟩⟩
  · rw [Function.update_of_ne h0] at h
    by_cases h1 : v = UPAGES + 1
    · subst h1
      rw [Function.update_self] at h
      cases h
      refine ⟨rfl, .inr ⟨rfl, fun ha => ?_⟩⟩
      have := K.trampoline_lt
      exact absurd ha.2.1 (Nat.not_le.mpr this)
    · rw [Function.update_of_ne h1] at h
      cases h

theorem KernelOnly.of_kernel {g : ℕ → Option Pte} (hg : ∀ v, UPAGES ≤ v → g v = kernelLeaves K f v) : KernelOnly g :=
  fun v hv _ he => (kernelLeaves_some ((hg v hv).symm.trans he)).1

section Same

variable (hk : KernelOnly (leaf s.mem r))
  (hd : ∀ v < UPAGES, ∀ e, leaf s.mem r v = some e → s'.data e.pa = s.data e.pa)

include hk hd

theorem pageByte_same (w : ℕ) :
    pageByte s' sz w (leaf s.mem r (w / PGSIZE)) = pageByte s sz w (leaf s.mem r (w / PGSIZE)) := by
  cases he : leaf s.mem r (w / PGSIZE) with
  | none => rfl
  | some e =>
    by_cases hv : w / PGSIZE < UPAGES
    · simp only [pageByte, hd _ hv e he]
    · simp only [pageByte, hk _ (Nat.not_lt.mp hv) e he, Bool.false_eq_true, if_false]

theorem userByte_same (hl : leaf s'.mem r = leaf s.mem r) (w : ℕ) : userByte s' r sz w = userByte s r sz w := by
  unfold userByte
  rw [hl, pageByte_same hk hd]

/-- A page that is not there yet is mapped, with zeros in it. -/
theorem userByte_fault {vpn : ℕ} {perm : Perm} (hv : vpn * PGSIZE < sz) (hnone : leaf s.mem r vpn = none)
    (hl : leaf s'.mem r = Function.update (leaf s.mem r) vpn (some ⟨true, perm, c⟩)) (hu : perm.u = true)
    (hc : ∀ o, s'.data c o = 0) (w : ℕ) : userByte s' r sz w = userByte s r sz w := by
  unfold userByte
  rw [hl]
  refine if_congr Iff.rfl rfl ?_
  by_cases hw : w / PGSIZE = vpn
  · subst hw
    rw [Function.update_self, hnone]
    simp only [pageByte, hu, hc, if_true, pgRoundDown]
    exact (if_pos hv).symm
  · rw [Function.update_of_ne hw, pageByte_same hk hd]

end Same

/-- A page fault does not show to who reads the memory. -/
theorem Fault.bytes {res : Option ℕ} (h : Fault K roots pend r sz a res s s') (hp : Pages K roots pend s) (hr : r ∈ roots)
    (hk : KernelOnly (leaf s.mem r)) (w : ℕ) : userByte s' r sz w = userByte s r sz w := by
  have hd := h.free.same hp r hr
  rcases h.page with ⟨-, hl, -⟩ | ⟨c, -, hf⟩
  · exact userByte_same hk hd hl w
  · exact userByte_fault hk hd hf.below hf.absent hf.leaf rfl hf.zero w

theorem KernelOnly.grown (h : KernelOnly (leaf s.mem r)) (hsz : sz ≤ TRAPFRAME) (hg : Grown roots r (npages sz) s s') :
    KernelOnly (leaf s'.mem r) :=
  fun v hv e he => h v hv e ((hg.above v ((npages_le hsz).trans hv)).symm.trans he)

/-- The bytes that are read from a page. -/
theorem pageBytes (hmax : a < MAXVA) (he : leaf s.mem r (a / PGSIZE) = some e) (hu : e.perm.u = true) (hn : n ≤ PGSIZE - a % PGSIZE)
    {j : ℕ} (hj : j < n) : ((List.range n).map fun t => s.data e.pa (a % PGSIZE + t))[j]? = userByte s r sz (a + j) := by
  have hpage : (a + j) / PGSIZE = a / PGSIZE ∧ (a + j) % PGSIZE = a % PGSIZE + j := by
    simp only [PGSIZE] at *
    omega
  have hlt : ¬ MAXVA ≤ a + j := by
    have := Nat.div_add_mod' (a + j) PGSIZE
    simp only [MAXVA, PGSIZE] at *
    omega
  rw [userByte, if_neg hlt, hpage.1, he, pageByte, if_pos hu, hpage.2]
  simp [hj]

theorem sub_pgRoundDown (a : ℕ) : a - pgRoundDown a = a % PGSIZE := by
  have := Nat.div_add_mod' a PGSIZE
  rw [pgRoundDown]
  omega

/-- The next page does not wrap around. -/
theorem next_page_lt (h : a < MAXVA) : (pgRoundDown a + PGSIZE) % 2 ^ 64 = pgRoundDown a + PGSIZE := by
  refine Nat.mod_eq_of_lt ?_
  have := Nat.div_mul_le_self a PGSIZE
  rw [pgRoundDown]
  simp only [MAXVA, PGSIZE] at *
  omega

end Read

/-- The pages of `len` bytes from `a` on. -/
def touched (a len : ℕ) : Finset ℕ := (Finset.Ico a (a + len)).image (· / PGSIZE)

/-- The page is there for the user, with the permissions, or it is below `sz` and not there yet. -/
def Usable (ok : Perm → Bool) (s : Mem) (r sz v : ℕ) : Prop :=
  (∃ e, leaf s.mem r v = some e ∧ ok e.perm = true) ∨ (leaf s.mem r v = none ∧ v * PGSIZE < sz)

/-- Those of the pages that are not there yet. -/
def unmapped (s : Mem) (r : ℕ) (V : Finset ℕ) : Finset ℕ := V.filter fun v => leaf s.mem r v = none

/-- There are enough free pages for them and their tables. -/
def Room (s : Mem) (r : ℕ) (V : Finset ℕ) : Prop := need s.mem r (unmapped s r V) ≤ s.freelist.length

structure Accessible (ok : Perm → Bool) (s : Mem) (r sz a len : ℕ) : Prop where
  usable : ∀ v ∈ touched a len, Usable ok s r sz v
  room : Room s r (touched a len)

/-- A page that the user can read or write. -/
def canRead (f : Perm) : Bool := f.u
def canWrite (f : Perm) : Bool := f.u && f.w

/-- All pages of the range are mapped for the user. -/
def Present (s : Mem) (r a len : ℕ) : Prop := ∀ v ∈ touched a len, ∃ e, leaf s.mem r v = some e ∧ canRead e.perm = true

section Touched

theorem mem_touched : v ∈ touched a len ↔ ∃ x, a ≤ x ∧ x < a + len ∧ x / PGSIZE = v := by
  simp only [touched, Finset.mem_image, Finset.mem_Ico, and_assoc]

theorem touched_zero (a : ℕ) : touched a 0 = ∅ := by
  rw [touched, Nat.add_zero, Finset.Ico_self, Finset.image_empty]

/-- The page of the first byte, and the pages from the next one on. -/
theorem touched_succ (hlen : 0 < len) :
    touched a len = insert (a / PGSIZE) (touched (pgRoundDown a + PGSIZE) (len - (PGSIZE - a % PGSIZE))) := by
  ext v
  rw [Finset.mem_insert, mem_touched, mem_touched, pgRoundDown]
  constructor
  · rintro ⟨x, h1, h2, rfl⟩
    by_cases hx : x / PGSIZE = a / PGSIZE
    · exact .inl hx
    · refine .inr ⟨x, ?_, ?_, rfl⟩
      · simp only [PGSIZE] at *
        omega
      · simp only [PGSIZE] at *
        omega
  · rintro (rfl | ⟨x, h1, h2, rfl⟩)
    · exact ⟨a, le_rfl, by omega, rfl⟩
    · refine ⟨x, ?_, ?_, rfl⟩
      · simp only [PGSIZE] at *
        omega
      · simp only [PGSIZE] at *
        omega

theorem first_notMem : a / PGSIZE ∉ touched (pgRoundDown a + PGSIZE) len := by
  rw [mem_touched, pgRoundDown]
  rintro ⟨x, h1, -, h2⟩
  simp only [PGSIZE] at *
  omega

end Touched

section Rooms

theorem unmapped_of_some (h : leaf s.mem r v = some e) (V : Finset ℕ) : unmapped s r (insert v V) = unmapped s r V := by
  rw [unmapped, Finset.filter_insert, if_neg (by rw [h]; exact nofun), unmapped]

theorem unmapped_of_none (h : leaf s.mem r v = none) (V : Finset ℕ) :
    unmapped s r (insert v V) = insert v (unmapped s r V) := by
  rw [unmapped, Finset.filter_insert, if_pos h, unmapped]

theorem need_insert_ge (mem : ℕ → Fin 512 → Pte) (r v : ℕ) (V : Finset ℕ) : need mem r {v} ≤ need mem r (insert v V) := by
  rw [need, need]
  refine Nat.add_le_add (Finset.card_le_card ?_) (Finset.card_le_card ?_)
  · exact Finset.singleton_subset_iff.mpr (Finset.mem_insert_self v V)
  · rw [tablesTo_insert]
    exact Finset.filter_subset_filter _ Finset.subset_union_left

/-- What the other pages cost then. -/
theorem Faulted.need (h : Faulted r sz v c s s') (hv : v ∉ V) :
    Vm.need s.mem r (insert v V) = Vm.need s.mem r {v} + Vm.need s'.mem r V := by
  have hcard := h.tables.card fun p (hp : p ∈ tablesTo V) => length_of_tablesTo hp
  rw [need_singleton, Vm.need, Vm.need, tablesTo_insert, ← hcard, Finset.card_insert_of_notMem hv]
  omega

theorem Faulted.room (h : Faulted r sz v c s s') (hv : v ∉ V) : Room s r (insert v V) ↔ Room s' r V := by
  have hsame : unmapped s' r V = unmapped s r V := by
    refine Finset.filter_congr fun w hw => ?_
    rw [h.leaf_ne (ne_of_mem_of_not_mem hw hv)]
  have hnot : v ∉ unmapped s r V := fun hin => hv (Finset.mem_filter.mp hin).1
  rw [Room, Room, unmapped_of_none h.absent, h.need hnot, hsame, ← h.free]
  omega

theorem Faulted.usable (h : Faulted r sz v c s s') (hw : w ≠ v) : Usable ok s' r sz w ↔ Usable ok s r sz w := by
  rw [Usable, Usable, h.leaf_ne hw]

end Rooms

section Pages

variable (hr : r ∈ roots)

include hr

/-- The page that a round of `copyout` or `copyin` works on: it is there, it has been faulted in, or there is none. -/
structure Fetched (K : Kernel) (roots pend : Set ℕ) (r sz v : ℕ) (res : Option ℕ) (s s' : Mem) : Prop where
  pages : Pages K roots pend s'
  kernel : KernelOnly (leaf s'.mem r)
  free : OnlyFree s s'
  but : SameBut roots r s s'
  grown : Grown roots r (npages sz) s s'
  bytes : ∀ w, userByte s' r sz w = userByte s r sz w
  page : (res = none ∧ ∀ V, ¬ (Usable canRead s r sz v ∧ Room s r (insert v V))) ∨
    ∃ e, res = some e.pa ∧ leaf s'.mem r v = some e ∧ e.perm.u = true ∧ v < UPAGES ∧
      (s' = s ∨ (e.perm.w = true ∧ Faulted r sz v e.pa s s'))

theorem userPage_exact (hsz : sz ≤ TRAPFRAME) (h : Pages K roots pend s) (hk : KernelOnly (leaf s.mem r)) (v : ℕ) :
    wp (userPage K r sz r (v * PGSIZE)) (fun res s' => Fetched K roots pend r sz v res s s') never s := by
  have hdiv : v * PGSIZE / PGSIZE = v := Nat.mul_div_cancel _ (by decide)
  simp only [userPage, wp_bind]
  refine wp_imp (walkaddr_exact r) fun res s1 hres => ?_
  obtain ⟨hs1, hsome, hnone⟩ := hres
  subst s1
  rw [hdiv] at hsome hnone
  cases res with
  | some pa =>
    obtain ⟨-, e, he, hu, rfl⟩ := hsome pa rfl
    have hv : v < UPAGES := by
      by_contra hge
      rw [hk v (Nat.not_lt.mp hge) e he] at hu
      cases hu
    exact ⟨h, hk, .refl _, .refl _ _, (SameLeaves.refl _ _).grown hr _, fun _ => rfl, .inr ⟨e, rfl, he, hu, hv, .inl rfl⟩⟩
  | none =>
    refine wp_imp (vmfault_fault h hr hsz) fun res s1 hf => ?_
    refine ⟨hf.pages, hk.grown hsz hf.grown, hf.free, hf.but, hf.grown, hf.bytes h hr hk, ?_⟩
    have hpage := hf.page
    rw [hdiv] at hpage
    rcases hpage with ⟨rfl, -, hneed⟩ | ⟨c, rfl, hc⟩
    · refine .inl ⟨rfl, fun V husable => ?_⟩
      obtain ⟨⟨e, he, hok⟩ | ⟨hl, hlt⟩, hroom⟩ := husable
      · -- it is mapped, but not for the user
        refine absurd hok (Bool.eq_false_iff.mp ?_)
        by_cases hmax : v * PGSIZE < MAXVA
        · exact hnone rfl hmax e he
        · refine hk v ?_ e he
          have := upages_lt.1
          simp only [MAXVA, PGSIZE] at this hmax
          omega
      · have := hneed hl hlt
        rw [Room, unmapped_of_none hl] at hroom
        have := need_insert_ge s.mem r v (unmapped s r V)
        omega
    · have hv : v < UPAGES := by
        have := page_lt_upages (hc.below.trans_le hsz)
        rwa [hdiv] at this
      refine .inr ⟨⟨true, ⟨true, true, false, true⟩, c⟩, rfl, ?_, rfl, hv, .inr ⟨rfl, hc⟩⟩
      rw [hc.leaf, Function.update_self]

end Pages

section Rounds

/-- What a round leaves of the pages after it. -/
theorem Fetched.accessible {res : Option ℕ} (h : Fetched K roots pend r sz v res s s') (hsome : res ≠ none) (hv : v ∉ V) :
    (∀ w ∈ V, Usable ok s r sz w) ∧ Room s r (insert v V) ↔ (∀ w ∈ V, Usable ok s' r sz w) ∧ Room s' r V := by
  rcases h.page with ⟨rfl, -⟩ | ⟨e, -, he, -, -, rfl | ⟨-, hf⟩⟩
  · exact absurd rfl hsome
  · rw [Room, unmapped_of_some he, Room]
  · rw [hf.room hv]
    refine and_congr_left fun _ => forall₂_congr fun w hw => ?_
    exact (hf.usable (ne_of_mem_of_not_mem hw hv)).symm

/-- The same for the bytes from the next page on. -/
theorem Fetched.rest {res : Option ℕ} (h : Fetched K roots pend r sz (a / PGSIZE) res s s') (hsome : res ≠ none) (hlen : 0 < len)
    (hfirst : Usable ok s r sz (a / PGSIZE)) :
    Accessible ok s r sz a len ↔ Accessible ok s' r sz (pgRoundDown a + PGSIZE) (len - (PGSIZE - a % PGSIZE)) := by
  have hnot : a / PGSIZE ∉ touched (pgRoundDown a + PGSIZE) (len - (PGSIZE - a % PGSIZE)) := first_notMem
  constructor
  · rintro ⟨hu, hroom⟩
    rw [touched_succ hlen] at hu hroom
    obtain ⟨hu', hroom'⟩ := (h.accessible hsome hnot).mp ⟨fun w hw => hu w (Finset.mem_insert_of_mem hw), hroom⟩
    exact ⟨hu', hroom'⟩
  · rintro ⟨hu, hroom⟩
    obtain ⟨hu', hroom'⟩ := (h.accessible hsome hnot).mpr ⟨hu, hroom⟩
    refine ⟨fun w hw => ?_, by rwa [touched_succ hlen]⟩
    rw [touched_succ hlen] at hw
    rcases Finset.mem_insert.mp hw with rfl | hw
    · exact hfirst
    · exact hu' w hw

theorem Fetched.inaccessible (h : Fetched K roots pend r sz (a / PGSIZE) none s s') (hlen : 0 < len)
    (hok : ∀ f, ok f = true → canRead f = true) : ¬ Accessible ok s r sz a len := by
  rintro ⟨hu, hroom⟩
  rw [touched_succ hlen] at hu hroom
  rcases h.page with ⟨-, hno⟩ | ⟨e, he, -⟩
  · refine hno _ ⟨?_, hroom⟩
    refine (hu _ (Finset.mem_insert_self ..)).imp_left fun hex => ?_
    obtain ⟨e, he, hp⟩ := hex
    exact ⟨e, he, hok _ hp⟩
  · cases he

theorem accessible_zero (ok : Perm → Bool) (s : Mem) (r sz a : ℕ) : Accessible ok s r sz a 0 := by
  refine ⟨fun v hv => ?_, ?_⟩
  · rw [touched_zero] at hv
    cases Finset.notMem_empty _ hv
  · rw [Room, touched_zero]
    exact Nat.zero_le _

theorem Present.cons (hlen : 0 < len) (hfirst : ∃ e, leaf s.mem r (a / PGSIZE) = some e ∧ canRead e.perm = true)
    (h : Present s r (pgRoundDown a + PGSIZE) (len - (PGSIZE - a % PGSIZE))) : Present s r a len := by
  intro v hv
  rw [touched_succ hlen] at hv
  rcases Finset.mem_insert.mp hv with rfl | hv
  · exact hfirst
  · exact h v hv

/-- What is mapped needs no free page. -/
theorem Present.accessible (h : Present s r a len) : Accessible canRead s r sz a len := by
  refine ⟨fun v hv => .inl (h v hv), ?_⟩
  have hmapped : unmapped s r (touched a len) = ∅ := by
    refine Finset.filter_eq_empty_iff.mpr fun v hv hnone => ?_
    obtain ⟨e, he, -⟩ := h v hv
    rw [hnone] at he
    cases he
  rw [Room, hmapped]
  exact Nat.zero_le _

theorem accessible_poke (data : ℕ → ℕ → UInt8) :
    Accessible ok { s with data := data } r sz a len ↔ Accessible ok s r sz a len :=
  ⟨fun h => ⟨h.usable, h.room⟩, fun h => ⟨h.usable, h.room⟩⟩

/-- Bytes are written to a page of the user. -/
theorem userByte_store (h : Pages K roots pend s) (hr : r ∈ roots) (hk : KernelOnly (leaf s.mem r)) (hv : v < UPAGES)
    (he : leaf s.mem r v = some e) (hu : e.perm.u = true) (off : ℕ) (bytes : List UInt8) :
    userByte { s with data := Function.update s.data e.pa (splice (s.data e.pa) off bytes) } r sz =
      overlay (userByte s r sz) (v * PGSIZE + off) (bytes.take (PGSIZE - off)) := by
  have hlen : (bytes.take (PGSIZE - off)).length = min (PGSIZE - off) bytes.length := List.length_take
  funext x
  rw [overlay, hlen, userByte, userByte]
  dsimp only
  by_cases hx : x / PGSIZE = v
  · have hmax : ¬ MAXVA ≤ x := by
      have := trapframe_eq.2
      have := trapframe_eq.1
      simp only [PGSIZE] at *
      omega
    rw [if_neg hmax, if_neg hmax, hx, he]
    simp only [pageByte, hu, if_true, Function.update_self, splice]
    have hmod : x = v * PGSIZE + x % PGSIZE := by
      rw [← hx]
      exact (Nat.div_add_mod' x PGSIZE).symm
    have hlt : x % PGSIZE < PGSIZE := Nat.mod_lt _ (by decide)
    by_cases ho1 : x % PGSIZE < off
    · rw [if_pos ho1, if_neg (by omega)]
    · rw [if_neg ho1]
      by_cases ho2 : x % PGSIZE - off < bytes.length
      · rw [if_pos (by omega), List.getElem?_take_of_lt (by omega), List.getElem?_eq_getElem ho2,
          show x - (v * PGSIZE + off) = x % PGSIZE - off by omega, List.getElem?_eq_getElem ho2]
        rfl
      · rw [if_neg (by omega), List.getElem?_eq_none (by omega)]
        rfl
  · have hout : ¬ (v * PGSIZE + off ≤ x ∧ x < v * PGSIZE + off + min (PGSIZE - off) bytes.length) := by
      simp only [PGSIZE] at *
      omega
    rw [if_neg hout]
    refine if_congr Iff.rfl rfl ?_
    cases hl : leaf s.mem r (x / PGSIZE) with
    | none => rfl
    | some d =>
      by_cases hlow : x / PGSIZE < UPAGES
      · have hne : d.pa ≠ e.pa := fun heq => hx (h.page_inj hr hlow hl hr hv he heq).2
        simp only [pageByte, Function.update_of_ne hne]
      · simp only [pageByte, hk _ (Nat.not_lt.mp hlow) d hl, Bool.false_eq_true, if_false]

/-- The memory that the process has, and what else is mapped, stays as it is. -/
structure Frame (roots : Set ℕ) (r : ℕ) (a len : ℕ) (s s' : Mem) : Prop where
  but : SameBut roots r s s'
  freelist : s'.freelist ⊆ s.freelist
  kept : ∀ v e, leaf s.mem r v = some e → leaf s'.mem r v = some e
  written : ∀ b ∉ s.freelist, ∀ o, s'.data b o ≠ s.data b o →
    ∃ v e, leaf s.mem r v = some e ∧ e.pa = b ∧ canWrite e.perm = true ∧ a ≤ v * PGSIZE + o ∧ v * PGSIZE + o < a + len

theorem Fetched.kept {res : Option ℕ} (h : Fetched K roots pend r sz v res s s') (he : leaf s.mem r w = some e) :
    leaf s'.mem r w = some e := by
  rw [h.grown.kept w (by rw [he]; exact Option.some_ne_none e), he]

/-- A page that is not free is one of those that have been there. -/
theorem Fetched.old {res : Option ℕ} (h : Fetched K roots pend r sz v res s s') (hsome : res ≠ none)
    (he : leaf s'.mem r w = some e) (hb : e.pa ∉ s.freelist) : leaf s.mem r w = some e := by
  rcases h.page with ⟨rfl, -⟩ | ⟨d, -, hd, -, -, rfl | ⟨-, hf⟩⟩
  · exact absurd rfl hsome
  · exact he
  · by_cases hw : w = v
    · subst hw
      obtain rfl := Option.some.inj (hd.symm.trans he)
      exact absurd hf.fresh hb
    · rwa [hf.leaf_ne hw] at he

end Rounds

section Loops

variable (hr : r ∈ roots) (hsz : sz ≤ TRAPFRAME)

/-- What `copyout` has done when it returns. -/
structure CopiedOut (K : Kernel) (roots pend : Set ℕ) (r sz a : ℕ) (src : List UInt8) (done : Bool) (s s' : Mem) : Prop where
  pages : Pages K roots pend s'
  kernel : KernelOnly (leaf s'.mem r)
  grown : Grown roots r (npages sz) s s'
  done_iff : done = true ↔ Accessible canWrite s r sz a src.length
  bytes : done = true → userByte s' r sz = overlay (userByte s r sz) a src
  there : done = true → Present s' r a src.length
  outside : ∀ x, ¬ (a ≤ x ∧ x < a + src.length) → userByte s' r sz x = userByte s r sz x
  frame : Frame roots r a src.length s s'

include hr in
theorem CopiedOut.nothing (h : Pages K roots pend s) (hk : KernelOnly (leaf s.mem r)) (a : ℕ) :
    CopiedOut K roots pend r sz a [] true s s where
  pages := h
  kernel := hk
  grown := (SameLeaves.refl _ _).grown hr _
  done_iff := ⟨fun _ => accessible_zero .., fun _ => rfl⟩
  bytes _ := (overlay_nil _ _).symm
  there _ v hv := by
    rw [List.length_nil, touched_zero] at hv
    cases Finset.notMem_empty _ hv
  outside _ _ := rfl
  frame := ⟨.refl _ _, fun _ => id, fun _ _ => id, fun _ _ _ hne => absurd rfl hne⟩

/-- A round in which nothing is written, and which is the last. -/
theorem CopiedOut.stop {src : List UInt8} (h : Pages K roots pend s') (hk : KernelOnly (leaf s'.mem r)) (hfree : OnlyFree s s')
    (hbut : SameBut roots r s s') (hg : Grown roots r (npages sz) s s')
    (hbytes : ∀ w, userByte s' r sz w = userByte s r sz w) (hnot : ¬ Accessible canWrite s r sz a src.length) :
    CopiedOut K roots pend r sz a src false s s' where
  pages := h
  kernel := hk
  grown := hg
  done_iff := ⟨nofun, fun hacc => absurd hacc hnot⟩
  bytes := nofun
  there := nofun
  outside x _ := hbytes x
  frame := ⟨hbut, hfree.freelist, fun v e he => (hg.kept v (by simp [he])).trans he, fun b hb o hne => absurd (congrFun (hfree.data b hb) o) hne⟩

include hr in
/-- A round that writes to the page `e`, and the rounds after it. -/
theorem Fetched.copied {src : List UInt8} {done : Bool} (hf : Fetched K roots pend r sz (a / PGSIZE) (some e.pa) s s')
    (he : leaf s'.mem r (a / PGSIZE) = some e) (hw : canWrite e.perm = true) (hv : a / PGSIZE < UPAGES) (hsrc : src ≠ [])
    (h : CopiedOut K roots pend r sz (pgRoundDown a + PGSIZE) (src.drop (PGSIZE - a % PGSIZE)) done
      { s' with data := Function.update s'.data e.pa (splice (s'.data e.pa) (a % PGSIZE) (src.take (PGSIZE - a % PGSIZE))) } s'') :
    CopiedOut K roots pend r sz a src done s s'' := by
  have hlen : 0 < src.length := List.length_pos_iff.mpr hsrc
  have hu : e.perm.u = true := (Bool.and_eq_true_iff.mp hw).1
  have hmod : a % PGSIZE < PGSIZE := Nat.mod_lt _ (by decide)
  have hsum : pgRoundDown a + a % PGSIZE = a := Nat.div_add_mod' a PGSIZE
  have htake : (src.take (PGSIZE - a % PGSIZE)).length = min (PGSIZE - a % PGSIZE) src.length := List.length_take
  have hdrop : (src.drop (PGSIZE - a % PGSIZE)).length = src.length - (PGSIZE - a % PGSIZE) := List.length_drop
  have hstore : userByte { s' with data := Function.update s'.data e.pa (splice (s'.data e.pa) (a % PGSIZE)
      (src.take (PGSIZE - a % PGSIZE))) } r sz = overlay (userByte s r sz) a (src.take (PGSIZE - a % PGSIZE)) := by
    rw [userByte_store hf.pages hr hf.kernel hv he hu, List.take_take, Nat.min_self, funext hf.bytes]
    exact congrArg (fun x => overlay _ x _) hsum
  have hfirst : Usable canWrite s r sz (a / PGSIZE) := by
    rcases hf.page with ⟨hnone, -⟩ | ⟨d, hd, hl, -, -, rfl | ⟨-, hfault⟩⟩
    · cases hnone
    · exact .inl ⟨e, he, hw⟩
    · exact .inr ⟨hfault.absent, hfault.below⟩
  refine ⟨h.pages, h.kernel, hf.grown.trans ⟨h.grown.but, h.grown.above, h.grown.kept⟩, ?_, fun hd => ?_, fun hd v hv => ?_,
    fun x hx => ?_, ?_⟩
  · rw [h.done_iff, hf.rest nofun hlen hfirst, hdrop]
    exact accessible_poke _
  · rw [h.bytes hd, hstore]
    rcases Nat.lt_or_ge (PGSIZE - a % PGSIZE) src.length with hlt | hge
    · have hnext : pgRoundDown a + PGSIZE = a + (src.take (PGSIZE - a % PGSIZE)).length := by omega
      rw [hnext, overlay_append, List.take_append_drop]
    · rw [List.drop_eq_nil_of_le hge, List.take_of_length_le hge, overlay_nil]
  · have hthere := h.there hd
    rw [hdrop] at hthere
    exact hthere.cons hlen ⟨e, h.frame.kept _ e he, hu⟩ v hv
  · rw [h.outside x (by rw [hdrop]; omega), hstore, overlay, if_neg (by omega)]
  · have hpoke := hf.pages.poked hr hv he (splice (s'.data e.pa) (a % PGSIZE) (src.take (PGSIZE - a % PGSIZE)))
    refine ⟨hf.but.trans (hpoke.but.trans h.frame.but), fun b hb => hf.free.freelist (h.frame.freelist hb),
      fun v d hd => h.frame.kept v d (hf.kept hd), fun b hb o hne => ?_⟩
    · have hb' : b ∉ s'.freelist := fun hin => hb (hf.free.freelist hin)
      by_cases hrest : s''.data b o = Function.update s'.data e.pa (splice (s'.data e.pa) (a % PGSIZE)
          (src.take (PGSIZE - a % PGSIZE))) b o
      · -- it has been written in this round
        rw [hrest, ← hf.free.data b hb] at hne
        have hbe : b = e.pa := by
          by_contra hbe
          rw [Function.update_of_ne hbe] at hne
          exact hne rfl
        subst hbe
        rw [Function.update_self, splice] at hne
        refine ⟨a / PGSIZE, e, hf.old nofun he hb, rfl, hw, ?_⟩
        rw [show a / PGSIZE * PGSIZE = pgRoundDown a from rfl]
        by_cases ho1 : o < a % PGSIZE
        · rw [if_pos ho1] at hne
          exact absurd rfl hne
        · rw [if_neg ho1] at hne
          by_cases ho2 : o - a % PGSIZE < min (PGSIZE - a % PGSIZE) src.length
          · omega
          · rw [List.getElem?_eq_none (by omega)] at hne
            exact absurd rfl hne
      · obtain ⟨v, d, hd, rfl, hdw, hlo, hhi⟩ := h.frame.written b hb' o hrest
        refine ⟨v, d, hf.old nofun hd hb, rfl, hdw, ?_⟩
        rw [hdrop] at hhi
        omega

include hr hsz

theorem copyoutFrom_exact (fuel a : ℕ) (src : List UInt8) (hfuel : src.length ≤ fuel) (h : Pages K roots pend s)
    (hk : KernelOnly (leaf s.mem r)) :
    wp (copyoutFrom K r sz r fuel a src) (fun done s' => CopiedOut K roots pend r sz a src done s s') never s := by
  induction fuel generalizing a src s with
  | zero =>
    obtain rfl : src = [] := List.eq_nil_of_length_eq_zero (by omega)
    exact .nothing hr h hk a
  | succ fuel ih =>
    simp only [copyoutFrom, wp_ite, wp_pure, wp_bind]
    refine ⟨?_, fun hsrc => ⟨fun hmax => ?_, fun hmax => ?_⟩⟩
    · rintro rfl
      exact .nothing hr h hk a
    · -- past `MAXVA` nothing is mapped for the user
      have hlen : 0 < src.length := List.length_pos_iff.mpr hsrc
      refine .stop h hk (.refl _) (.refl _ _) ((SameLeaves.refl _ _).grown hr _) (fun _ => rfl) fun hacc => ?_
      have hin : a / PGSIZE ∈ touched a src.length := mem_touched.mpr ⟨a, le_rfl, by omega, rfl⟩
      have hge : TRAPFRAME ≤ a / PGSIZE * PGSIZE := trapframe_eq.2.trans hmax
      rcases hacc.usable _ hin with ⟨e, he, hw⟩ | ⟨-, hlt⟩
      · have hu : UPAGES ≤ a / PGSIZE := by
          rw [← trapframe_eq.1] at hge
          exact Nat.le_of_mul_le_mul_right hge (by decide)
        have := hk _ hu e he
        rw [canWrite, this, Bool.false_and] at hw
        cases hw
      · omega
    · have hlen : 0 < src.length := List.length_pos_iff.mpr hsrc
      have hdiv : pgRoundDown a / PGSIZE = a / PGSIZE := Nat.mul_div_cancel _ (by decide)
      refine wp_imp (userPage_exact hr hsz h hk (a / PGSIZE)) fun res s1 hf => ?_
      cases res with
      | none =>
        refine .stop hf.pages hf.kernel hf.free hf.but hf.grown hf.bytes (hf.inaccessible hlen fun f hok => ?_)
        exact (Bool.and_eq_true_iff.mp hok).1
      | some pa =>
        obtain ⟨hnone, -⟩ | ⟨e, hpa, he, hu, hv, hcase⟩ := hf.page
        · cases hnone
        obtain rfl := Option.some.inj hpa
        simp only [wp_bind]
        refine wp_imp (walk_false r (Nat.not_le.mp hmax)) fun res s2 hres => ?_
        obtain ⟨hs2, rfl⟩ := hres
        subst s2
        rw [hdiv]
        cases hslot : slotAt s1.mem r (a / PGSIZE) with
        | none =>
          rw [leaf_of_none hslot] at he
          cases he
        | some loc =>
          have hpte : s1.mem loc.1 loc.2 = e := by
            have hleaf := leaf_of_slot (hv.trans upages_lt.2) hslot
            rw [he] at hleaf
            split_ifs at hleaf
            exact (Option.some.inj hleaf).symm
          simp only [wp_bind, wp_readPte, wp_ite, wp_pure, wp_memmove, hpte, sub_pgRoundDown]
          refine ⟨fun hw => ?_, fun hw => ?_⟩
          · -- the page is not for writing, and has been there before
            have hw : e.perm.w = false := by simpa using hw
            rcases hcase with rfl | ⟨hw', -⟩
            · refine .stop hf.pages hf.kernel hf.free hf.but hf.grown hf.bytes fun hacc => ?_
              have hin : a / PGSIZE ∈ touched a src.length := mem_touched.mpr ⟨a, le_rfl, by omega, rfl⟩
              rcases hacc.usable _ hin with ⟨d, hd, hok⟩ | ⟨hd, -⟩
              · obtain rfl := Option.some.inj (he.symm.trans hd)
                rw [canWrite, hw, Bool.and_false] at hok
                cases hok
              · rw [he] at hd
                cases hd
            · rw [hw] at hw'
              cases hw'
          · have hw : canWrite e.perm = true := by
              rw [canWrite, hu]
              simpa using hw
            have hpoke := (hf.pages.poked hr hv he (splice (s1.data e.pa) (a % PGSIZE) (src.take (PGSIZE - a % PGSIZE)))).pages hf.pages
            refine wp_imp (ih _ _ ?_ hpoke hf.kernel) fun done s3 h3 => hf.copied hr he hw hv hsrc h3
            rw [List.length_drop]
            have := Nat.mod_lt a (by decide : 0 < PGSIZE)
            omega

omit hr hsz in
/-- A round that reads the page `e`, and the rounds after it. -/
theorem Fetched.reads {rest : List UInt8} (hf : Fetched K roots pend r sz (a / PGSIZE) (some e.pa) s s') (ha : a < MAXVA)
    (he : leaf s'.mem r (a / PGSIZE) = some e) (hu : e.perm.u = true) (hn : n = min (PGSIZE - a % PGSIZE) len)
    (h : ∀ k < len - n, userByte s' r sz (pgRoundDown a + PGSIZE + k) = rest[k]?) (k : ℕ) (hk : k < len) :
    userByte s r sz (a + k) = ((List.range n).map (fun t => s'.data e.pa (a % PGSIZE + t)) ++ rest)[k]? := by
  have hpage : ((List.range n).map fun t => s'.data e.pa (a % PGSIZE + t)).length = n := by simp
  rw [← hf.bytes]
  by_cases hin : k < n
  · rw [List.getElem?_append_left (hpage.symm ▸ hin), pageBytes ha he hu (by omega) hin]
  · have hnext : a + k = pgRoundDown a + PGSIZE + (k - n) := by
      have := Nat.div_add_mod' a PGSIZE
      have := Nat.mod_lt a (by decide : 0 < PGSIZE)
      rw [pgRoundDown]
      omega
    rw [hnext, h _ (by omega), List.getElem?_append_right (by omega), hpage]

/-- What `copyin` has done when it returns. -/
structure CopiedIn (K : Kernel) (roots pend : Set ℕ) (r sz a len : ℕ) (res : Option (List UInt8)) (s s' : Mem) : Prop where
  pages : Pages K roots pend s'
  grown : Grown roots r (npages sz) s s'
  done_iff : res.isSome = true ↔ Accessible canRead s r sz a len
  reads : ∀ bs, res = some bs → bs.length = len ∧ ∀ k < len, userByte s r sz (a + k) = bs[k]?
  bytes : ∀ w, userByte s' r sz w = userByte s r sz w

omit hsz in
theorem CopiedIn.nothing (h : Pages K roots pend s) (a : ℕ) : CopiedIn K roots pend r sz a 0 (some []) s s :=
  ⟨h, (SameLeaves.refl _ _).grown hr _, ⟨fun _ => accessible_zero .., fun _ => rfl⟩, by simp, fun _ => rfl⟩

/-- `copyin` succeeds if the range can be read, reads what the memory holds, and changes nothing that can be seen. -/
theorem copyinFrom_exact (fuel a len : ℕ) (hfuel : len ≤ fuel) (h : Pages K roots pend s) (hk : KernelOnly (leaf s.mem r)) :
    wp (copyinFrom K r sz r fuel a len) (fun res s' => CopiedIn K roots pend r sz a len res s s') never s := by
  induction fuel generalizing a len s with
  | zero =>
    obtain rfl : len = 0 := by omega
    exact .nothing hr h a
  | succ fuel ih =>
    simp only [copyinFrom, wp_ite, wp_pure, wp_bind]
    refine ⟨?_, fun hlen => ?_⟩
    · rintro rfl
      exact .nothing hr h a
    have hlen : 0 < len := by omega
    refine wp_imp (userPage_exact hr hsz h hk (a / PGSIZE)) fun res s1 hf => ?_
    cases res with
    | none =>
      exact ⟨hf.pages, hf.grown, ⟨by simp, fun hacc => absurd hacc (hf.inaccessible hlen fun _ => id)⟩, by simp, hf.bytes⟩
    | some pa =>
      obtain ⟨hnone, -⟩ | ⟨e, hpa, he, hu, hv, hcase⟩ := hf.page
      · cases hnone
      obtain rfl := Option.some.inj hpa
      have hfirst : Usable canRead s r sz (a / PGSIZE) := by
        rcases hcase with rfl | ⟨-, hfault⟩
        · exact .inl ⟨e, he, hu⟩
        · exact .inr ⟨hfault.absent, hfault.below⟩
      have ha : a < MAXVA := by
        have := upages_lt.1
        simp only [MAXVA, PGSIZE] at this hv ⊢
        omega
      simp only [wp_bind, wp_readBytes, wp_pure, sub_pgRoundDown, next_page_lt ha]
      have hmod := Nat.mod_lt a (by decide : 0 < PGSIZE)
      refine wp_imp (ih _ _ (by omega) hf.pages hf.kernel) fun rest s2 h2 => ?_
      refine ⟨h2.pages, hf.grown.trans h2.grown, ?_, fun bs hbs => ?_, fun w => (h2.bytes w).trans (hf.bytes w)⟩
      · have hrest : len - min (PGSIZE - a % PGSIZE) len = len - (PGSIZE - a % PGSIZE) := by omega
        rw [Option.isSome_map, h2.done_iff, hf.rest (by simp) hlen hfirst, hrest]
      · obtain ⟨rest, rfl, rfl⟩ := Option.map_eq_some_iff.mp hbs
        obtain ⟨hcount, hread⟩ := h2.reads rest rfl
        refine ⟨?_, hf.reads ha he hu rfl hread⟩
        rw [List.length_append, List.length_map, List.length_range, hcount]
        omega

variable (h : Pages K roots pend s) (hk : KernelOnly (leaf s.mem r))

include h hk

theorem copyin_exact (a len : ℕ) : ∃ res s', copyin K r sz r a len s = .ok (res, s') ∧
    (res.isSome = true ↔ Accessible canRead s r sz a len) ∧
    (∀ bs, res = some bs → bs.length = len ∧ ∀ k < len, userByte s r sz (a + k) = bs[k]?) ∧
    ∀ x, userByte s' r sz x = userByte s r sz x := by
  obtain ⟨res, s', hs', hc⟩ := wp_returns (copyinFrom_exact hr hsz len a len le_rfl h hk)
  exact ⟨res, s', hs', hc.done_iff, hc.reads, hc.bytes⟩

/-- `copyin` of bytes that are there. -/
theorem copyin_present {bytes : List UInt8} (hp : Present s r a bytes.length)
    (hbytes : ∀ k < bytes.length, userByte s r sz (a + k) = bytes[k]?) :
    ∃ s', copyin K r sz r a bytes.length s = .ok (some bytes, s') := by
  obtain ⟨res, s', hs', hiff, hreads, -⟩ := copyin_exact hr hsz h hk a bytes.length
  obtain ⟨bs, rfl⟩ := Option.isSome_iff_exists.mp (hiff.mpr hp.accessible)
  obtain ⟨hlen, hbs⟩ := hreads bs rfl
  have heq : bs = bytes := by
    refine List.ext_getElem? fun k => ?_
    by_cases hk : k < bytes.length
    · rw [← hbs k hk, hbytes k hk]
    · rw [List.getElem?_eq_none (by omega), List.getElem?_eq_none (by omega)]
  rw [heq] at hs'
  exact ⟨s', hs'⟩

end Loops

end Xv6.Vm
