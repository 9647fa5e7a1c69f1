import Xv6.Proofs.AddressBound
import Xv6.Sanity.Isolation

/-! `kfork` copies the memory of the parent, and after it neither of the two processes sees what the other writes. -/

namespace Xv6.Vm

open Wp Holders Machine

variable {K : Kernel} {σ τ τ' : St} {p q : Slot} {r : ℕ}

section Aside

/-- The operations of a process on its own memory. -/
def Act.OwnMemory (p : Slot) : Act → Prop
  | .sbrk q .. | .fault q _ | .copyout q .. => q = p
  | _ => False

/-- `p`, with page table `r`, has worked on its own memory since `σ`. -/
structure Aside (K : Kernel) (p : Slot) (r : ℕ) (σ τ : St) : Prop where
  mem : Keeps K (roots σ.proc) r σ.m τ.m
  entry : ∃ sz, τ.proc = Function.update σ.proc p { σ.proc p with sz := sz }

theorem Aside.pagetable (h : Aside K p r σ τ) (hr : (σ.proc p).pagetable = some r) : (τ.proc p).pagetable = some r := by
  obtain ⟨sz, hsz⟩ := h.entry
  rw [hsz, Function.update_self]
  exact hr

theorem Aside.memory {m : Mem} (h : Aside K p r σ τ) (hm : Keeps K (roots σ.proc) r σ.m m) : Aside K p r σ { τ with m := m } :=
  ⟨hm, h.entry⟩

theorem Aside.resize {m : Mem} (h : Aside K p r σ τ) (hm : Keeps K (roots σ.proc) r σ.m m) (sz : ℕ) :
    Aside K p r σ { τ with m := m, proc := Function.update τ.proc p { τ.proc p with sz := sz } } := by
  refine ⟨hm, sz, ?_⟩
  obtain ⟨sz', hsz'⟩ := h.entry
  dsimp only
  rw [hsz', Function.update_self, Function.update_idem]

variable (hr : (σ.proc p).pagetable = some r) (h : Aside K p r σ τ)

include hr h

theorem growproc_aside (n : ℤ) : wp (growproc K p n) (fun _ τ' => Aside K p r σ τ') anyError τ := by
  have hroot : r ∈ roots σ.proc := mem_holdings hr
  simp only [growproc, wp_bind, wp_getProc, wp_pagetableOf (h.pagetable hr), wp_ite, wp_vm, wp_modifyProc, wp_pure]
  refine ⟨fun _ => ?_, fun _ => ⟨fun _ => ?_, fun _ => h.resize h.mem _⟩⟩
  · exact wp_mono (uvmalloc_keeps h.mem hroot _ _ _) (fun _ m hm => ⟨fun _ => h.memory hm, fun _ => h.resize hm _⟩) fun _ => id
  · exact wp_mono (uvmdealloc_keeps h.mem hroot _ _) (fun _ m hm => h.resize hm _) fun _ => id

theorem sysSbrk_aside (n t : ℤ) : wp (sysSbrk K p n t) (fun _ τ' => Aside K p r σ τ') anyError τ := by
  simp only [sysSbrk, wp_bind, wp_getProc, wp_ite, wp_pure, wp_modifyProc]
  refine ⟨fun _ => ?_, fun _ => ⟨fun _ => h, fun _ => h.resize h.mem _⟩⟩
  exact wp_mono (growproc_aside hr h n) (fun _ _ h' => ⟨fun _ => h', fun _ => h'⟩) fun _ => id

theorem pageFault_aside (va : ℕ) : wp (pageFault K p va) (fun _ τ' => Aside K p r σ τ') anyError τ := by
  simp only [pageFault, wp_bind, wp_getProc, wp_pagetableOf (h.pagetable hr), wp_vm, wp_pure]
  exact wp_mono (vmfault_keeps h.mem (mem_holdings hr) _ _) (fun _ _ hm => h.memory hm.1) fun _ => id

theorem copyoutTo_aside (va : ℕ) (src : List UInt8) :
    wp (copyoutTo K p va src) (fun _ τ' => Aside K p r σ τ') anyError τ := by
  have hroot : r ∈ roots σ.proc := mem_holdings hr
  simp only [copyoutTo, wp_bind, wp_getProc, wp_pagetableOf (h.pagetable hr), wp_vm]
  exact wp_mono (copyoutFrom_keeps hroot _ _ _ _ h.mem) (fun _ _ hm => h.memory hm) fun _ => id

theorem Aside.step {a : Act} (ha : a.OwnMemory p) (hs : step K a τ = .ok τ') : Aside K p r σ τ' := by
  have hrun : wp (a.run K) (fun _ τ' => Aside K p r σ τ') anyError τ := by
    cases a with
    | sbrk q n t =>
      obtain rfl : q = p := ha
      exact wp_discard.mpr (sysSbrk_aside hr h _ _)
    | fault q va =>
      obtain rfl : q = p := ha
      exact wp_discard.mpr (pageFault_aside hr h va)
    | copyout q va src =>
      obtain rfl : q = p := ha
      exact wp_discard.mpr (copyoutTo_aside hr h va src)
    | _ => exact ha.elim
  unfold Vm.step at hs
  split_ifs at hs
  cases ho : a.run K τ with
  | error e =>
    rw [ho] at hs
    cases hs
  | ok x =>
    rw [ho] at hs
    cases hs
    exact wp_ok (m := a.run K) hrun ho

end Aside

section Reads

/-- What `copyin` reads of the memory of `q` is the same in both states. -/
structure SameReads (K : Kernel) (q : Slot) (σ τ : St) : Prop where
  entry : τ.proc q = σ.proc q
  bytes : ∀ r, (σ.proc q).pagetable = some r → ∀ va, userByte τ.m r (σ.proc q).sz va = userByte σ.m r (σ.proc q).sz va
  copyin : ∀ va len bs bs' σ1 τ1, copyinFromUser K q va len σ = .ok (some bs, σ1) →
    copyinFromUser K q va len τ = .ok (some bs', τ1) → bs = bs'

theorem copyinFromUser_reads {roots pend : Set ℕ} {va len : ℕ} {bs : List UInt8} {σ1 : St} (h : Pages K roots pend σ.m)
    (hroot : r ∈ roots) (hr : (σ.proc q).pagetable = some r) (hsz : (σ.proc q).sz ≤ TRAPFRAME) (hk : KernelOnly (leaf σ.m.mem r))
    (hc : copyinFromUser K q va len σ = .ok (some bs, σ1)) :
    bs.length = len ∧ ∀ k < len, userByte σ.m r (σ.proc q).sz (va + k) = bs[k]? := by
  have hwp : wp (copyinFromUser K q va len) (fun res _ => ∀ bs, res = some bs →
      bs.length = len ∧ ∀ k < len, userByte σ.m r (σ.proc q).sz (va + k) = bs[k]?) never σ := by
    simp only [copyinFromUser, wp_bind, wp_getProc, wp_pagetableOf hr, wp_vm]
    exact wp_imp (copyinFrom_exact hroot hsz _ va len le_rfl h hk) fun _ _ hc => hc.reads
  exact wp_ok (m := copyinFromUser K q va len) hwp hc bs rfl

/-- What `p` does to its memory does not show to another process. -/
theorem Aside.reads {r' : ℕ} {pend : Set ℕ} (h : Aside K p r σ τ) (hp : Pages K (roots σ.proc) pend σ.m) (hqp : q ≠ p)
    (hr : (σ.proc q).pagetable = some r') (hne : r' ≠ r) (hsz : (σ.proc q).sz ≤ TRAPFRAME)
    (hk : KernelOnly (leaf σ.m.mem r')) : SameReads K q σ τ := by
  have hroot : r' ∈ roots σ.proc := mem_holdings hr
  obtain ⟨sz, hproc⟩ := h.entry
  obtain ⟨pend', hp', -, hbut⟩ := h.mem
  have hentry : τ.proc q = σ.proc q := by rw [hproc, Function.update_of_ne hqp]
  have hleaf : leaf τ.m.mem r' = leaf σ.m.mem r' := hbut.leaf r' ⟨hroot, hne⟩
  have hbytes : ∀ va, userByte τ.m r' (σ.proc q).sz va = userByte σ.m r' (σ.proc q).sz va :=
    userByte_same hk (hbut.data r' ⟨hroot, hne⟩) hleaf
  refine ⟨hentry, fun x hx => ?_, fun va len bs bs' σ1 τ1 hbs hbs' => ?_⟩
  · obtain rfl : r' = x := Option.some.inj (hr.symm.trans hx)
    exact hbytes
  · obtain ⟨hlen, hread⟩ := copyinFromUser_reads hp hroot hr hsz hk hbs
    obtain ⟨hlen', hread'⟩ := copyinFromUser_reads hp' hroot (by rwa [hentry]) (by rwa [hentry]) (by rwa [hleaf]) hbs'
    refine List.ext_getElem? fun k => ?_
    by_cases hkl : k < len
    · rw [← hread k hkl, ← hread' k hkl, hentry, hbytes]
    · rw [List.getElem?_eq_none (by omega), List.getElem?_eq_none (by omega)]

end Reads

section Fork

/-- The allocator and the page tables of the processes are in order; `pend` are the pages held outside of page tables. -/
structure Sound (K : Kernel) (pend : Set ℕ) (σ : St) : Prop where
  pages : Pages K (roots σ.proc) pend σ.m
  tables : Apart (pagetables σ.proc) ∅
  unused : ∀ q, (σ.proc q).state = .unused → (σ.proc q).pagetable = none
  special : ∀ q r, (σ.proc q).pagetable = some r → Special K pend (leaf σ.m.mem r)

/-- `p` has a page table and a trapframe, which is mapped above its memory. -/
structure Running (K : Kernel) (pend : Set ℕ) (σ : St) (p : Slot) (r f : ℕ) : Prop where
  pagetable : (σ.proc p).pagetable = some r
  trapframe : (σ.proc p).trapframe = some f
  held : f ∈ pend
  kernel : ∀ v, UPAGES ≤ v → leaf σ.m.mem r v = kernelLeaves K f v
  size : (σ.proc p).sz ≤ TRAPFRAME

variable {pend : Set ℕ} {f : ℕ}

theorem Special.of_kernel {g : ℕ → Option Pte} (hg : ∀ v, UPAGES ≤ v → g v = kernelLeaves K f v) (hf : f ∈ pend) :
    Special K pend g := by
  refine ⟨fun v hv e he => ?_, fun v w hv hw e d he hd heq ha => ?_⟩
  · rw [hg v hv] at he
    rcases (kernelLeaves_some he).2 with ⟨-, rfl⟩ | ⟨-, hn⟩
    · exact .inl hf
    · exact .inr hn
  · rw [hg v hv] at he
    rw [hg w hw] at hd
    rcases (kernelLeaves_some he).2 with ⟨rfl, -⟩ | ⟨-, hn⟩
    · rcases (kernelLeaves_some hd).2 with ⟨rfl, -⟩ | ⟨-, hn⟩
      · rfl
      · exact absurd (heq ▸ ha) hn
    · exact absurd ha hn

/-- The new process that `allocproc` returns: a trapframe `c` and a page table `new` that maps it. -/
structure Born (K : Kernel) (pend : Set ℕ) (σ σ1 : St) (np : Slot) (new c : ℕ) : Prop where
  unused : (σ.proc np).state = .unused
  proc : σ1.proc = Function.update σ.proc np { σ.proc np with state := .used, trapframe := some c, pagetable := some new }
  frame : c ∉ pend
  table : new ∉ roots σ.proc
  pages : Pages K (insert new (roots σ.proc)) (insert c pend) σ1.m
  maps : leaf σ1.m.mem new = kernelLeaves K c
  same : SameLeaves (roots σ.proc) σ.m σ1.m

theorem allocproc_born (h : Sound K pend σ) :
    wp (allocproc K) (fun res σ1 => ∀ np, res = some np → ∃ new c, Born K pend σ σ1 np new c) anyError σ := by
  have hnone : ∀ {α : Type} {g : M α} {τ : St}, wp g (fun _ σ1 => ∀ np, none = some np → ∃ new c, Born K pend σ σ1 np new c)
      anyError τ := wp_mono wp_true (fun _ _ _ => nofun) fun _ => id
  simp only [allocproc, wp_bind, wp_get]
  cases hfind : (List.finRange NPROC).find? fun p => (σ.proc p).state = .unused with
  | none => exact nofun
  | some p =>
    have hst : (σ.proc p).state = .unused := by simpa using List.find?_some hfind
    simp only [wp_bind, wp_modifyProc, wp_vm]
    refine wp_imp (kalloc_spec h.pages) fun res m1 hres => ?_
    obtain ⟨rfl, rfl⟩ | ⟨c, rfl, -, hc, h1, hsame1⟩ := hres
    · simp only [wp_bind, wp_modifyProc, wp_pure]
      exact hnone
    · simp only [wp_bind, wp_modifyProc, wp_vm]
      refine wp_imp (procPagetable_spec c h1) fun res m2 h2 => ?_
      obtain ⟨hl2, ⟨rfl, -⟩ | ⟨new, rfl, hnew, hp2, hleaf⟩⟩ := h2
      · simp only [wp_bind, wp_modifyProc, wp_pure]
        exact hnone
      · simp only [wp_bind, wp_modifyProc, wp_pure, Function.update_self, Function.update_idem]
        rintro np ⟨⟩
        exact ⟨new, c, hst, rfl, hc, hnew, hp2, hleaf, hsame1.leaves.trans hl2⟩

theorem Running.ne (hp : Running K pend σ p r f) (hs : Sound K pend σ) (hun : (σ.proc q).state = .unused) : p ≠ q := by
  rintro rfl
  have := hs.unused p hun
  rw [hp.pagetable] at this
  cases this

/-- The memory of the child is a copy of the first `n` pages of the parent's: mapped where that is, with the same permissions
and contents, in pages that nobody else maps. -/
structure Copy (σ : St) (np : Slot) (r new n : ℕ) : Prop where
  unmapped : ∀ v < n, leaf σ.m.mem r v = none → leaf σ.m.mem new v = none
  mapped : ∀ v < n, ∀ e, leaf σ.m.mem r v = some e → ∃ c, leaf σ.m.mem new v = some ⟨true, e.perm, c⟩ ∧
    (∀ o < PGSIZE, σ.m.data c o = σ.m.data e.pa o) ∧
    ∀ q r' w d, (σ.proc q).pagetable = some r' → leaf σ.m.mem r' w = some d → d.pa = c → q = np ∧ w = v

/-- The memory behind the page table `r` is the same. -/
def SameMemory (r : ℕ) (m m' : Mem) : Prop :=
  leaf m'.mem r = leaf m.mem r ∧ ∀ v < UPAGES, ∀ e, leaf m.mem r v = some e → m'.data e.pa = m.data e.pa

theorem Special.mono {pend' : Set ℕ} {g : ℕ → Option Pte} (h : Special K pend g) (hsub : pend ⊆ pend') : Special K pend' g :=
  ⟨fun v hv e he => (h.held v hv e he).imp_left fun hin => hsub hin, h.apart⟩

/-- A page of user memory is mapped once. -/
theorem Sound.once {v w : ℕ} {e d : Pte} {new r' : ℕ} {np : Slot} (h : Sound K pend σ) (hnew : (σ.proc np).pagetable = some new)
    (hv : v < UPAGES) (he : leaf σ.m.mem new v = some e) (hr' : (σ.proc q).pagetable = some r')
    (hd : leaf σ.m.mem r' w = some d) (heq : d.pa = e.pa) : q = np ∧ w = v := by
  obtain ⟨harea, -, hpend⟩ := h.pages.user (mem_holdings hnew) hv he
  by_cases hw : w < UPAGES
  · obtain ⟨hroot, hpage⟩ := h.pages.page_inj (mem_holdings hr') hw hd (mem_holdings hnew) hv he heq
    exact ⟨h.tables.inj hr' (hroot ▸ hnew), hpage⟩
  · rw [← heq] at harea hpend
    exact ((h.special q r' hr').held w (Nat.not_lt.mp hw) d hd).elim (fun hin => absurd hin hpend) fun hn => absurd harea hn

/-- What `kfork` leaves behind. -/
structure Child (K : Kernel) (pend : Set ℕ) (σ σ' : St) (p np : Slot) (r f new c : ℕ) : Prop where
  sound : Sound K (insert c pend) σ'
  parent : Running K (insert c pend) σ' p r f
  child : Running K (insert c pend) σ' np new c
  ne : p ≠ np
  copy : Copy σ' np r new (npages (σ.proc p).sz)
  registers : ∀ o < TRAPFRAME_SIZE, σ'.m.data c o = if A0 ≤ o ∧ o < A0 + 8 then 0 else σ'.m.data f o
  same : SameMemory r σ.m σ'.m

theorem registers_copied (page page' : ℕ → UInt8) {o : ℕ} (ho : o < TRAPFRAME_SIZE) :
    splice (splice page 0 ((List.range TRAPFRAME_SIZE).map fun t => page' (0 + t))) A0 (leBytes 8 0) o =
      if A0 ≤ o ∧ o < A0 + 8 then 0 else page' o := by
  have hzero : ∀ k, k < 8 → (leBytes 8 0)[k]? = some 0 := by decide
  have hregs : splice page 0 ((List.range TRAPFRAME_SIZE).map fun t => page' (0 + t)) o = page' o := by
    simp [splice, ho]
  rw [splice, hregs]
  by_cases hlo : o < A0
  · rw [if_pos hlo, if_neg (by omega)]
  · rw [if_neg hlo]
    by_cases hhi : o < A0 + 8
    · rw [hzero _ (by omega), if_pos ⟨by omega, hhi⟩]
      rfl
    · rw [List.getElem?_eq_none (by simp [leBytes]; omega), if_neg (by omega)]
      rfl

section Born

variable {σ1 : St} {np : Slot} {new c : ℕ} (hs : Sound K pend σ) (hp : Running K pend σ p r f)
  (hb : Born K pend σ σ1 np new c)

include hs hp hb

omit hs in
theorem Born.copy : wp (uvmcopy K r new (σ.proc p).sz) (fun ok m =>
    Pages K (insert new (roots σ.proc)) (insert c pend) m ∧ SameLeaves (roots σ.proc) σ.m m ∧
    (∀ v, npages (σ.proc p).sz ≤ v → leaf m.mem new v = kernelLeaves K c v) ∧
    (ok = false → leaf m.mem new = kernelLeaves K c) ∧
    (ok = true → Copied σ.m m r new (npages (σ.proc p).sz))) never σ1.m := by
  have hroot : r ∈ roots σ.proc := mem_holdings hp.pagetable
  have hne : r ≠ new := fun he => hb.table (he ▸ hroot)
  refine wp_imp (uvmcopy_spec hb.pages (.inr hroot) (.inl rfl) hne hp.size fun w hw => ?_) fun ok m hm => ?_
  · rw [hb.maps, kernelLeaves_user K c hw]
  · obtain ⟨hpages, hbut, habove, hundo, hcopy⟩ := hm
    refine ⟨hpages, hb.same.trans (hbut.leaves hb.table), fun v hv => ?_, fun hok => ?_, fun hok => ?_⟩
    · rw [habove v hv, hb.maps]
    · rw [hundo hok, hb.maps]
    · obtain ⟨hun, hmap⟩ := hcopy hok
      have hleaf := hb.same.leaf r hroot
      refine ⟨fun w hw hnone => hun w hw (by rw [hleaf]; exact hnone), fun w hw e he => ?_⟩
      obtain ⟨x, hx, hbytes⟩ := hmap w hw e (by rw [hleaf]; exact he)
      have hw' : w < UPAGES := hw.trans_le (npages_le hp.size)
      exact ⟨x, hx, fun o ho => by rw [hbytes o ho, hb.same.data r hroot w hw' e he]⟩

/-- The state after the copy, with the child's entry and registers filled in. -/
theorem Born.child {σ' : St} {m : Mem} {e : Proc} (hsame : SameLeaves (roots σ.proc) σ.m m) (hcopy : Copied σ.m m r new (npages (σ.proc p).sz))
    (habove : ∀ v, npages (σ.proc p).sz ≤ v → leaf m.mem new v = kernelLeaves K c v)
    (hl : SameLeaves (insert new (roots σ.proc)) m σ'.m) (hpages' : Pages K (insert new (roots σ.proc)) (insert c pend) σ'.m)
    (hproc : σ'.proc = Function.update σ.proc np e) (hst : e.state ≠ .unused) (hr : e.pagetable = some new)
    (hf : e.trapframe = some c) (hsz : e.sz = (σ.proc p).sz)
    (hregs : ∀ o < TRAPFRAME_SIZE, σ'.m.data c o = if A0 ≤ o ∧ o < A0 + 8 then 0 else σ'.m.data f o) :
    Child K pend σ σ' p np r f new c := by
  have hroot : r ∈ roots σ.proc := mem_holdings hp.pagetable
  have hne : p ≠ np := hp.ne hs hb.unused
  have hnone : pagetables σ.proc np = none := hs.unused np hb.unused
  have hroots : roots σ'.proc = insert new (roots σ.proc) := by
    rw [hproc, roots, pagetables_update, hr, holdings_give hnone]
    rfl
  have hsame' : SameLeaves (roots σ.proc) σ.m σ'.m := hsame.trans (hl.mono (Set.subset_insert _ _))
  have hother : ∀ q ≠ np, σ'.proc q = σ.proc q := fun q hq => by rw [hproc, Function.update_of_ne hq]
  have hself : σ'.proc np = e := by rw [hproc, Function.update_self]
  have hkernel : ∀ v, UPAGES ≤ v → leaf σ'.m.mem new v = kernelLeaves K c v := fun v hv => by
    rw [hl.leaf new (.inl rfl), habove v ((npages_le hp.size).trans hv)]
  have hsound : Sound K (insert c pend) σ' := by
    refine ⟨by rwa [hroots], ?_, fun q hq => ?_, fun q x hx => ?_⟩
    · rw [hproc, pagetables_update, hr]
      exact hs.tables.give hb.table np
    · by_cases hqn : q = np
      · rw [hqn, hself] at hq
        exact absurd hq hst
      · rw [hother q hqn] at hq ⊢
        exact hs.unused q hq
    · by_cases hqn : q = np
      · rw [hqn, hself, hr] at hx
        cases hx
        exact .of_kernel hkernel (Set.mem_insert c pend)
      · rw [hother q hqn] at hx
        rw [hsame'.leaf x (mem_holdings hx)]
        exact (hs.special q x hx).mono (Set.subset_insert c pend)
  refine ⟨hsound, ?_, ?_, hne, ?_, hregs, hsame'.leaf r hroot, hsame'.data r hroot⟩
  · refine ⟨?_, ?_, .inr hp.held, ?_, ?_⟩
    · rw [hother p hne]
      exact hp.pagetable
    · rw [hother p hne]
      exact hp.trapframe
    · rw [hsame'.leaf r hroot]
      exact hp.kernel
    · rw [hother p hne]
      exact hp.size
  · rw [← hself] at hr hf hsz
    exact ⟨hr, hf, .inl rfl, hkernel, hsz ▸ hp.size⟩
  · refine ⟨fun v hv hun => ?_, fun v hv x hx => ?_⟩
    · rw [hsame'.leaf r hroot] at hun
      rw [hl.leaf new (.inl rfl)]
      exact hcopy.unmapped v hv hun
    · have hv' : v < UPAGES := hv.trans_le (npages_le hp.size)
      rw [hsame'.leaf r hroot] at hx
      obtain ⟨y, hy, hbytes⟩ := hcopy.mapped v hv x hx
      have hy' : leaf σ'.m.mem new v = some ⟨true, x.perm, y⟩ := by rw [hl.leaf new (.inl rfl), hy]
      refine ⟨y, hy', fun o ho => ?_, fun q r' w d hr' hd heq => ?_⟩
      · rw [hl.data new (.inl rfl) v hv' _ hy, hbytes o ho, hsame'.data r hroot v hv' x hx]
      · exact hsound.once (by rw [hself]; exact hr) hv' hy' hr' hd heq

end Born

theorem kfork_child (h : Sound K pend σ) (hp : Running K pend σ p r f) :
    wp (kfork K p) (fun res σ' => ∀ np, res = some np → ∃ new c, Child K pend σ σ' p np r f new c) anyError σ := by
  simp only [kfork, wp_bind]
  refine wp_mono (allocproc_born h) (fun res σ1 h1 => ?_) fun _ => id
  cases res with
  | none => simp
  | some np =>
    obtain ⟨new, c, hb⟩ := h1 np rfl
    have hne : p ≠ np := hp.ne h hb.unused
    have hp1 : σ1.proc p = σ.proc p := by rw [hb.proc, Function.update_of_ne hne]
    have hold : (σ1.proc p).pagetable = some r := by rw [hp1]; exact hp.pagetable
    have hframe : (σ1.proc p).trapframe = some f := by rw [hp1]; exact hp.trapframe
    have hnew : (σ1.proc np).pagetable = some new := by rw [hb.proc, Function.update_self]
    have hc : (σ1.proc np).trapframe = some c := by rw [hb.proc, Function.update_self]
    simp only [wp_bind, wp_getProc, wp_pagetableOf hold, wp_pagetableOf hnew, wp_vm, hp1]
    refine wp_imp (hb.copy hp) fun ok m hm => ?_
    obtain ⟨hpages, hsame, habove, -, hcopy⟩ := hm
    rw [wp_ite]
    refine ⟨fun hok => ?_, fun _ => ?_⟩
    · simp only [wp_bind, wp_modifyProc, wp_pure]
      rw [wp_trapframeOf (by simpa using hc), wp_trapframeOf (by simpa [Function.update_of_ne hne] using hframe)]
      simp only [wp_vm, wp_readBytes, wp_memmove, Function.update_idem, Function.update_self]
      rintro _ ⟨⟩
      obtain ⟨hpages', hfill⟩ := hpages.fill (Set.mem_insert c pend) (splice (splice (m.data c) 0
        ((List.range TRAPFRAME_SIZE).map fun t => m.data f (0 + t))) A0 (leBytes 8 0))
      have hfc : f ≠ c := fun he => hb.frame (he ▸ hp.held)
      refine ⟨new, c, hb.child h hp
        (e := { σ1.proc np with state := .live, parent := some p, sz := (σ.proc p).sz }) hsame (hcopy hok) habove hfill
        hpages' ?_ (by simp) hnew hc rfl fun o ho => ?_⟩
      · simp only [hb.proc, Function.update_idem]
      · simp only [Function.update_self, Function.update_of_ne hfc]
        exact registers_copied _ _ ho
    · simp only [wp_bind, wp_pure]
      exact wp_mono wp_true (fun _ _ _ => by simp) fun _ => id

/-- After the fork neither of the two sees what the other does to its memory. -/
theorem Child.isolated {σ' : St} {np : Slot} {new c : ℕ} (h : Child K pend σ σ' p np r f new c) {as : List Act} :
    (Run (step K) (fun _ a => a.OwnMemory p) σ' as τ → SameReads K np σ' τ) ∧
    (Run (step K) (fun _ a => a.OwnMemory np) σ' as τ → SameReads K p σ' τ) := by
  have hne : new ≠ r := fun he => h.ne (h.sound.tables.inj h.parent.pagetable (he ▸ h.child.pagetable))
  have hstart : ∀ q x, (σ'.proc q).pagetable = some x → Aside K q x σ' σ' := fun q x hx =>
    ⟨.start h.sound.pages (h.sound.special q x hx), (σ'.proc q).sz, (Function.update_eq_self q σ'.proc).symm⟩
  refine ⟨fun hr => ?_, fun hr => ?_⟩
  · have haside := hr.inv (hstart p r h.parent.pagetable) fun _ _ _ ha hown hs => ha.step h.parent.pagetable hown hs
    exact haside.reads h.sound.pages h.ne.symm h.child.pagetable hne h.child.size (.of_kernel h.child.kernel)
  · have haside := hr.inv (hstart np new h.child.pagetable) fun _ _ _ ha hown hs => ha.step h.child.pagetable hown hs
    exact haside.reads h.sound.pages h.ne h.parent.pagetable hne.symm h.parent.size (.of_kernel h.parent.kernel)

/-- **Fork copies and isolates.** When `kfork` succeeds the child has the parent's memory, in pages of its own, and its
registers but for `a0`; from then on no sequence of `sbrk`, page faults and `copyout` of one of the two changes what
`copyin` reads in the other. When the copy fails the parent is as before and the child maps no user page. -/
theorem fork_copies_and_isolates (K : Kernel) (pend : Set ℕ) (σ : St) (p : Slot) (r f : ℕ) (hs : Sound K pend σ)
    (hp : Running K pend σ p r f) :
    (∀ np σ', kfork K p σ = .ok (some np, σ') → ∃ new c,
      (σ'.proc np).pagetable = some new ∧ (σ'.proc np).trapframe = some c ∧ (σ'.proc p).trapframe = some f ∧
      Copy σ' np r new (npages (σ.proc p).sz) ∧ SameMemory r σ.m σ'.m ∧
      (∀ o < TRAPFRAME_SIZE, σ'.m.data c o = if A0 ≤ o ∧ o < A0 + 8 then 0 else σ'.m.data f o) ∧
      ∀ as τ, (Run (step K) (fun _ a => a.OwnMemory p) σ' as τ → SameReads K np σ' τ) ∧
        (Run (step K) (fun _ a => a.OwnMemory np) σ' as τ → SameReads K p σ' τ)) ∧
    ∀ np σ1 new m, allocproc K σ = .ok (some np, σ1) → (σ1.proc np).pagetable = some new →
      uvmcopy K r new (σ.proc p).sz σ1.m = .ok (false, m) →
      SameMemory r σ.m m ∧ ∀ v < UPAGES, leaf m.mem new v = none := by
  refine ⟨fun np σ' hok => ?_, fun np σ1 new m halloc hnew hcopy => ?_⟩
  · obtain ⟨new, c, h⟩ := wp_ok (m := kfork K p) (kfork_child hs hp) hok np rfl
    exact ⟨new, c, h.child.pagetable, h.child.trapframe, h.parent.trapframe, h.copy, h.same, h.registers,
      fun as τ => h.isolated⟩
  · obtain ⟨new', c, hb⟩ := wp_ok (m := allocproc K) (allocproc_born hs) halloc np rfl
    obtain rfl : new' = new := by
      rw [hb.proc, Function.update_self] at hnew
      exact Option.some.inj hnew
    obtain ⟨-, hsame, -, hundo, -⟩ := wp_ok (m := uvmcopy K r new' (σ.proc p).sz) (hb.copy hp) hcopy
    have hroot : r ∈ roots σ.proc := mem_holdings hp.pagetable
    refine ⟨⟨hsame.leaf r hroot, hsame.data r hroot⟩, fun v hv => ?_⟩
    rw [hundo rfl, kernelLeaves_user K c hv]

end Fork

section Reached

theorem Inv.sound (h : Inv K ∅ σ) : Sound K (held σ.proc σ.others ∅) σ := by
  refine ⟨h.pages, h.tables, fun q hq => ((h.sane q).unused hq).1, fun q r hr => ?_⟩
  obtain ⟨hsz, f, hf, hk⟩ := (h.sane q).table r hr
  exact .of_kernel (fun v hv => hk v ((npages_le hsz).trans hv)) (mem_holdings hf)

theorem Inv.running (h : Inv K ∅ σ) (hr : (σ.proc p).pagetable = some r) :
    ∃ f, Running K (held σ.proc σ.others ∅) σ p r f := by
  obtain ⟨hsz, f, hf, hk⟩ := (h.sane p).table r hr
  exact ⟨f, hr, hf, mem_holdings hf, fun v hv => hk v ((npages_le hsz).trans hv), hsz⟩

/-- The first process, grown by a page and by a lazy one that it has not touched, is about to fork. -/
def beforeFork : List Act :=
  [.userinit, .forkret ⟨true, true, 0, [⟨true, true, 5, 0, 4096, 4096, fun _ => 0x13, 1⟩]⟩, .sbrk 0 4096 1, .sbrk 0 4096 0]

theorem beforeFork_ok : (execIf (step smallKernel) (within smallKernel) beforeFork (boot smallFreelist [])).Sat fun σ =>
    (σ.proc 0).pagetable = some 0x87fe4000 ∧ npages (σ.proc 0).sz = 6 ∧
    (kfork smallKernel 0 σ).toOption.bind Prod.fst = some 1 := by
  decide +kernel

theorem fork_copies_and_isolates_first : ∃ σ σ' new, Run (step smallKernel) (Within smallKernel) (boot smallFreelist []) beforeFork σ ∧
    kfork smallKernel 0 σ = .ok (some 1, σ') ∧ Copy σ' 1 0x87fe4000 new 6 ∧
    ∀ as τ, Run (step smallKernel) (fun _ a => a.OwnMemory 0) σ' as τ → SameReads smallKernel 1 σ' τ := by
  obtain ⟨σ, hσ, hr, hsz, hfork⟩ := beforeFork_ok.ok
  have hrun := (run_of_execIf hσ).mono fun _ _ h => Within.of_within h
  have h := run_inv (boot_inv (by decide +kernel) mem_smallFreelist) hrun
  obtain ⟨f, hf⟩ := h.running hr
  have hmain := fork_copies_and_isolates smallKernel _ σ 0 _ f h.sound hf
  cases hok : kfork smallKernel 0 σ with
  | error e =>
    rw [hok] at hfork
    cases hfork
  | ok res =>
    obtain ⟨np, σ'⟩ := res
    rw [hok] at hfork
    obtain rfl : np = some 1 := hfork
    obtain ⟨new, c, -, -, -, hcopy, -, -, hiso⟩ := hmain.1 1 σ' hok
    rw [hsz] at hcopy
    exact ⟨σ, σ', new, hrun, hok, hcopy, fun as τ => (hiso as τ).1⟩

/-- A process without memory has such a child. -/
example : (execIf (step smallKernel) (within smallKernel) [.userinit, .fork 0] (boot smallFreelist [])).Sat fun σ =>
    (σ.proc 1).state = .live ∧ (σ.proc 1).sz = 0 := by decide +kernel

end Reached

end Xv6.Vm
