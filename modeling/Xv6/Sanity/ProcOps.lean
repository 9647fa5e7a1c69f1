import Xv6.Sanity.ProcMemory
import Xv6.Sanity.UserCopy

/-! What the operations of a process do to the pages of all processes. -/

namespace Xv6.Vm

open Wp Holders

variable {K : Kernel} {Y : Set ℕ} {σ σ' : St} {p q : Slot} {m' : Mem}

section Fork

theorem Inv.give_frame {c : ℕ} (h : Inv K (insert c Y) σ) (hc : c ∉ held σ.proc σ.others Y) (hf : (σ.proc p).trapframe = none)
    (hst : (σ.proc p).state = .used) : Inv K Y { σ with proc := Function.update σ.proc p { σ.proc p with trapframe := some c } } := by
  have hr := (h.sane p).no_table hf
  have ht : Function.update (pagetables σ.proc) p (σ.proc p).pagetable = pagetables σ.proc := Function.update_eq_self p _
  have hfr : Apart (trapframes σ.proc) ({f | f ∈ σ.others} ∪ Y) :=
    h.frames.elsewhere fun f hf => .inl (hf.imp_right fun hY => .inr hY)
  have hs : Sane K σ.m { σ.proc p with trapframe := some c } := by
    refine ⟨fun hu => ?_, (h.sane p).alive, (h.sane p).empty, fun r hr' => ?_⟩
    · cases hst.symm.trans hu
    · cases hr.symm.trans hr'
  refine h.entry (e := { σ.proc p with trapframe := some c }) (Set.subset_insert c Y) ?_ (hfr.give hc p) ?_ (fun _ _ _ _ => rfl) hs
  · rw [ht]
    exact h.tables
  · rw [ht, holdings_give (g := trapframes σ.proc) hf]
    have hp := h.pages
    rwa [held_insert] at hp

theorem Inv.give_table {r f : ℕ} (h : Inv K Y σ) (hp : Pages K (insert r (roots σ.proc)) (held σ.proc σ.others Y) m')
    (hnew : r ∉ roots σ.proc) (hl : SameLeaves (roots σ.proc) σ.m m') (hnone : (σ.proc p).pagetable = none)
    (hf : (σ.proc p).trapframe = some f) (hr : leaf m'.mem r = kernelLeaves K f) (hst : (σ.proc p).state = .used) :
    Inv K Y ⟨m', Function.update σ.proc p { σ.proc p with pagetable := some r }, σ.others⟩ := by
  have hf' : Function.update (trapframes σ.proc) p (σ.proc p).trapframe = trapframes σ.proc := Function.update_eq_self p _
  have hs : Sane K m' { σ.proc p with pagetable := some r } := by
    refine ⟨fun hu => ?_, fun _ => Option.some_ne_none r, nofun, ?_⟩
    · cases hst.symm.trans hu
    · rintro _ ⟨⟩
      refine ⟨?_, f, hf, fun v _ => congrFun hr v⟩
      rw [(h.sane p).empty hnone]
      exact Nat.zero_le _
  refine h.entry (e := { σ.proc p with pagetable := some r }) subset_rfl (h.tables.give hnew p) ?_ ?_ (fun q _ r' hq => hl.leaf r' (mem_holdings hq)) hs
  · rw [hf']
    exact h.frames
  · rw [hf', holdings_give (g := pagetables σ.proc) hnone]
    exact hp

theorem used_entry (hr : (σ.proc p).pagetable = none) (hf : (σ.proc p).trapframe = none) (hsz : (σ.proc p).sz = 0) :
    let σ1 : St := { σ with proc := Function.update σ.proc p { σ.proc p with state := .used } }
    (∀ q ≠ p, σ1.proc q = σ.proc q) ∧ (σ1.proc p).state = .used ∧ (σ1.proc p).pagetable = none ∧
      (σ1.proc p).trapframe = none ∧ (σ1.proc p).sz = 0 := by
  refine ⟨fun q hq => Function.update_of_ne hq _ _, ?_⟩
  simp [hr, hf, hsz]

theorem allocproc_spec (h : Inv K Y σ) :
    wp (allocproc K) (fun res σ' => Inv K Y σ' ∧ ∀ np, res = some np → (σ.proc np).state = .unused ∧
      (∀ q ≠ np, σ'.proc q = σ.proc q) ∧ (σ'.proc np).state = .used ∧ (σ'.proc np).sz = 0 ∧
      ∃ r f, (σ'.proc np).pagetable = some r ∧ (σ'.proc np).trapframe = some f) never σ := by
  simp only [allocproc, wp_bind, wp_get]
  cases hfind : (List.finRange NPROC).find? fun p => (σ.proc p).state = .unused with
  | none => exact ⟨h, by simp⟩
  | some p =>
    have hst : (σ.proc p).state = .unused := by simpa using List.find?_some hfind
    obtain ⟨hr, hf⟩ := (h.sane p).unused hst
    have hsz := (h.sane p).empty hr
    have h1 : Inv K Y { σ with proc := Function.update σ.proc p { σ.proc p with state := .used } } :=
      h.same rfl rfl h.pages (fun _ _ _ _ => rfl) ⟨by simp, fun hs => hs.elim (by simp) (by simp), (h.sane p).empty, (h.sane p).table⟩
    simp only [wp_bind, wp_modifyProc]
    obtain ⟨hsame1, hst1, hr1, hf1, hsz1⟩ := used_entry hr hf hsz
    generalize ({ σ with proc := Function.update σ.proc p { σ.proc p with state := .used } } : St) = σ1 at *
    refine wp_imp (vm_kalloc_spec h1) fun res σ2 hres => ?_
    obtain ⟨m2, rfl, -, ⟨rfl, h2⟩ | ⟨c, rfl, hc, h2⟩⟩ := hres
    · have hself : ({ σ1.proc p with trapframe := none } : Proc) = σ1.proc p := by rw [← hf1]
      simp only [wp_bind, wp_modifyProc, wp_pure, hself, Function.update_eq_self]
      exact wp_imp (freeproc_spec h2 p) fun _ σ3 h3 => ⟨h3.1, by simp⟩
    · simp only [wp_bind, wp_modifyProc]
      have h3 := h2.give_frame hc hf1 hst1
      rw [wp_vm]
      refine wp_imp (procPagetable_spec c h3.pages) fun res m4 h4 => ?_
      obtain ⟨hl4, ⟨rfl, hp4⟩ | ⟨r, rfl, hnew, hp4, hr4⟩⟩ := h4
      · have h4 := h3.memory hp4 hl4 fun f hf => .inl hf
        simp only [wp_bind, wp_modifyProc, wp_pure, Function.update_self, Function.update_idem, ← hr1]
        exact wp_imp (freeproc_spec h4 p) fun _ σ5 h5 => ⟨h5.1, by simp⟩
      · have h4 := h3.give_table (p := p) hp4 hnew hl4 (by simp [hr1]) (by simp) hr4 (by simp [hst1])
        refine ⟨h4, ?_⟩
        rintro np ⟨⟩
        refine ⟨hst, fun q hq => ?_, ?_, ?_, r, c, ?_, ?_⟩
        · simp only [Function.update_of_ne hq, hsame1 q hq]
        all_goals simp [hst1, hsz1]

/-- A process that is alive has a page table, and a trapframe. -/
theorem Inv.live (h : Inv K Y σ) (hp : (σ.proc p).state = .live) :
    ∃ r f, (σ.proc p).pagetable = some r ∧ (σ.proc p).trapframe = some f ∧ r ∈ roots σ.proc ∧ (σ.proc p).sz ≤ TRAPFRAME ∧
      ∀ v, npages (σ.proc p).sz ≤ v → leaf σ.m.mem r v = kernelLeaves K f v := by
  obtain ⟨r, hr⟩ := Option.ne_none_iff_exists'.mp ((h.sane p).alive (.inl hp))
  obtain ⟨hsz, f, hf, hv⟩ := (h.sane p).table r hr
  exact ⟨r, f, hr, hf, mem_holdings hr, hsz, hv⟩

theorem wp_pagetableOf {r : ℕ} {Q : ℕ → St → Prop} {E : String → Prop} (hr : (σ.proc p).pagetable = some r) :
    wp (pagetableOf p) Q E σ ↔ Q r σ := by
  simp only [pagetableOf, wp_bind, wp_getProc, hr, wp_pure]

theorem wp_trapframeOf {f : ℕ} {Q : ℕ → St → Prop} {E : String → Prop} (hf : (σ.proc p).trapframe = some f) :
    wp (trapframeOf p) Q E σ ↔ Q f σ := by
  simp only [trapframeOf, wp_bind, wp_getProc, hf, wp_pure]

/-- An operation on the page table of `p` leaves the other processes alone. -/
theorem Inv.others_same {r : ℕ} (h : Inv K Y σ) (hb : ∀ r' ∈ roots σ.proc, r' ≠ r → leaf m'.mem r' = leaf σ.m.mem r') (hr : (σ.proc p).pagetable = some r)
    (q : Slot) (hq : q ≠ p) (r' : ℕ) (hr' : (σ.proc q).pagetable = some r') : leaf m'.mem r' = leaf σ.m.mem r' :=
  hb r' (mem_holdings hr') fun he => hq (h.tables.inj hr' (he ▸ hr))

theorem kfork_spec (h : Inv K Y σ) (hp : (σ.proc p).state = .live) : wp (kfork K p) (fun _ σ' => Inv K Y σ') never σ := by
  simp only [kfork, wp_bind]
  refine wp_imp (allocproc_spec h) fun res σ1 h1 => ?_
  obtain ⟨h1, hnp⟩ := h1
  cases res with
  | none => exact h1
  | some np =>
    obtain ⟨hun, hsame, hst, hsz0, new, f, hnew, hf⟩ := hnp np rfl
    have hne : p ≠ np := by
      rintro rfl
      rw [hp] at hun
      cases hun
    obtain ⟨old, f', hold, hf', holdr, hsz, -⟩ := h1.live (by rwa [hsame p hne])
    obtain ⟨-, f'', hf'', hleaf⟩ := (h1.sane np).table new hnew
    obtain rfl : f'' = f := by
      rw [hf] at hf''
      exact (Option.some.inj hf'').symm
    rw [hsz0] at hleaf
    simp only [wp_bind, wp_getProc, wp_pagetableOf hold, wp_pagetableOf hnew, wp_vm]
    have htables : old ≠ new := fun he => hne (h1.tables.inj hold (he ▸ hnew))
    refine wp_imp (uvmcopy_spec h1.pages holdr (mem_holdings hnew) htables hsz fun w hw => ?_) fun ok m2 h2 => ?_
    · rw [hleaf w (Nat.zero_le _), kernelLeaves_user K _ hw]
    · obtain ⟨hp2, hb2, habove, hundo, -⟩ := h2
      have hoth := h1.others_same hb2.others hnew
      rw [wp_ite]
      refine ⟨fun hok => ?_, fun hok => ?_⟩
      · simp only [wp_bind, wp_modifyProc, wp_pure]
        rw [wp_trapframeOf (by simpa using hf), wp_trapframeOf (by simpa [Function.update_of_ne hne] using hf')]
        simp only [wp_vm, wp_readBytes, wp_memmove, Function.update_idem, Function.update_self]
        refine h1.same rfl rfl (hp2.poke _) hoth ⟨by simp, fun _ => ?_, fun hn => ?_, fun r hr => ?_⟩
        · simp [hnew]
        · simp [hnew] at hn
        · obtain rfl : new = r := Option.some.inj (hnew.symm.trans hr)
          refine ⟨hsz, _, hf, fun v hv => ?_⟩
          rw [habove v hv, hleaf v (Nat.zero_le _)]
      · have h2 : Inv K Y { σ1 with m := m2 } := by
          have hs : Sane K m2 (σ1.proc np) := (h1.sane np).congr fun r hr => by
            obtain rfl : new = r := Option.some.inj (hnew.symm.trans hr)
            exact hundo (by simpa using hok)
          have := h1.same (p := np) (e := σ1.proc np) rfl rfl hp2 hoth hs
          rwa [Function.update_eq_self] at this
        simp only [wp_bind, wp_pure]
        exact wp_imp (freeproc_spec h2 np) fun _ σ3 h3 => h3.1

end Fork

section Memory

theorem Inv.grown {r : ℕ} (h : Inv K Y σ) (hr : (σ.proc p).pagetable = some r)
    (hp : Pages K (roots σ.proc) (held σ.proc σ.others Y) m') (hg : Grown (roots σ.proc) r (npages (σ.proc p).sz) σ.m m') :
    Inv K Y { σ with m := m' } := by
  have hs : Sane K m' (σ.proc p) := by
    refine ⟨(h.sane p).unused, (h.sane p).alive, (h.sane p).empty, fun r' hr' => ?_⟩
    obtain rfl : r = r' := Option.some.inj (hr.symm.trans hr')
    obtain ⟨hsz, f, hf, hv⟩ := (h.sane p).table r hr
    exact ⟨hsz, f, hf, fun v hn => by rw [hg.above v hn, hv v hn]⟩
  have := h.same (p := p) (e := σ.proc p) rfl rfl hp (h.others_same hg.but hr) hs
  rwa [Function.update_eq_self] at this

/-- The size of `p` changes together with its page table. -/
theorem Inv.resize {r f sz : ℕ} (h : Inv K Y σ) (hst : (σ.proc p).state = .live) (hr : (σ.proc p).pagetable = some r)
    (hf : (σ.proc p).trapframe = some f) (hp : Pages K (roots σ.proc) (held σ.proc σ.others Y) m')
    (hb : SameBut (roots σ.proc) r σ.m m') (hsz : sz ≤ TRAPFRAME)
    (hv : ∀ v, npages sz ≤ v → leaf m'.mem r v = kernelLeaves K f v) :
    Inv K Y ⟨m', Function.update σ.proc p { σ.proc p with sz := sz }, σ.others⟩ := by
  refine h.same rfl rfl hp (h.others_same hb.others hr) ⟨fun hu => ?_, (h.sane p).alive, fun hn => ?_, fun r' hr' => ?_⟩
  · cases hst.symm.trans hu
  · cases hr.symm.trans hn
  · obtain rfl : r = r' := Option.some.inj (hr.symm.trans hr')
    exact ⟨hsz, f, hf, hv⟩

theorem addSz_zero {sz : ℕ} (h : sz ≤ TRAPFRAME) : addSz sz 0 = sz := by
  have hlt : sz < 2 ^ 64 := h.trans_lt (by decide)
  simp only [addSz, add_zero]
  omega

theorem growproc_spec {n : ℤ} (h : Inv K Y σ) (hst : (σ.proc p).state = .live) :
    wp (growproc K p n) (fun _ σ' => Inv K Y σ')
      (fun e => e = "mappages: remap" ∧ 0 < n ∧ TRAPFRAME < addSz (σ.proc p).sz n) σ := by
  obtain ⟨r, f, hr, hf, hroot, hsz, hv⟩ := h.live hst
  have hun := npages_le hsz
  have hk : ∀ v, npages (σ.proc p).sz ≤ v → v < UPAGES → leaf σ.m.mem r v = none := fun v hn hu => by
    rw [hv v hn, kernelLeaves_user K f hu]
  simp only [growproc, wp_bind, wp_getProc, wp_pagetableOf hr, wp_ite, wp_vm, wp_modifyProc, wp_pure]
  refine ⟨fun hpos => ?_, fun _ => ⟨fun hneg => ?_, fun _ => ?_⟩⟩
  · have htf : leaf σ.m.mem r UPAGES ≠ none := by
      rw [hv UPAGES hun, kernelLeaves, Function.update_self]
      exact Option.some_ne_none _
    refine wp_mono (uvmalloc_spec h.pages hroot hsz hk htf) (fun res m' h' => ?_) fun e he => ⟨he.1, hpos, he.2.1⟩
    obtain ⟨hp', hb', -, ⟨rfl, hlt, hl⟩ | ⟨rfl, hl⟩ | ⟨rfl, hle, hnew, hfill, -⟩⟩ := h'
    · refine ⟨fun h0 => absurd h0 (by omega), fun _ => h.resize hst hr hf hp' hb' hsz fun v hn => ?_⟩
      rw [hl, hv v hn]
    · refine ⟨fun _ => h.grown hr hp' ⟨hb'.others, fun v _ => by rw [hl], fun v _ => by rw [hl]⟩, fun h0 => absurd rfl h0⟩
    · refine ⟨fun h0 => h.grown hr hp' ?_, fun _ => h.resize hst hr hf hp' hb' hnew fun v hn => ?_⟩
      · have hn0 : npages (addSz (σ.proc p).sz n) ≤ npages (σ.proc p).sz := by
          rw [h0]
          exact npages_mono (Nat.zero_le _)
        have hl : leaf m'.mem r = leaf σ.m.mem r := funext fun v => hfill.outside v (by omega)
        exact ⟨hb'.others, fun v _ => by rw [hl], fun v _ => by rw [hl]⟩
      · rw [hfill.outside v (by omega), hv v ((npages_mono hle).trans hn)]
  · refine wp_mono (uvmdealloc_spec h.pages hroot hsz) (fun res m' h' => ?_) fun e he => he.elim
    obtain ⟨rfl, hp', hb', hl⟩ := h'
    refine h.resize hst hr hf hp' hb' ((min_le_left _ _).trans hsz) fun v hn => ?_
    rw [hl, without]
    split_ifs with hin
    · rw [kernelLeaves_user K f (by omega)]
    · exact hv v (by omega)
  · exact h.resize hst hr hf h.pages (.refl _ _) hsz hv

theorem sysSbrk_spec {n t : ℤ} (h : Inv K Y σ) (hst : (σ.proc p).state = .live) :
    wp (sysSbrk K p n t) (fun _ σ' => Inv K Y σ' ∨ (0 < n ∧ TRAPFRAME < addSz (σ.proc p).sz n) ∧ TRAPFRAME < (σ'.proc p).sz)
      (fun e => e = "mappages: remap" ∧ 0 < n ∧ TRAPFRAME < addSz (σ.proc p).sz n) σ := by
  obtain ⟨r, f, hr, hf, hroot, hsz, hv⟩ := h.live hst
  simp only [sysSbrk, wp_bind, wp_getProc, wp_ite, wp_pure, wp_modifyProc, Function.update_self]
  refine ⟨fun _ => wp_mono (growproc_spec h hst) (fun _ σ' h' => ⟨fun _ => .inl h', fun _ => .inl h'⟩) fun _ he => he,
    fun hlazy => ⟨fun _ => .inl h, fun hle => ?_⟩⟩
  by_cases hnew : addSz (σ.proc p).sz n ≤ TRAPFRAME
  · refine .inl (h.resize hst hr hf h.pages (.refl _ _) hnew fun v hn => hv v ((npages_mono ?_).trans hn))
    omega
  · have hpos : 0 < n := by
      by_contra hn
      obtain rfl : n = 0 := by omega
      exact hnew (by rwa [addSz_zero hsz])
    exact .inr ⟨⟨hpos, by omega⟩, by omega⟩

theorem Inv.kernelOnly {r : ℕ} (h : Inv K Y σ) (hr : (σ.proc p).pagetable = some r) : KernelOnly (leaf σ.m.mem r) := by
  obtain ⟨hsz, f, -, hv⟩ := (h.sane p).table r hr
  exact .of_kernel fun v hu => hv v ((npages_le hsz).trans hu)

theorem copyoutTo_spec {va : ℕ} {src : List UInt8} (h : Inv K Y σ) (hst : (σ.proc p).state = .live) :
    wp (copyoutTo K p va src) (fun _ σ' => Inv K Y σ' ∧ σ'.proc = σ.proc) never σ := by
  obtain ⟨r, f, hr, -, hroot, hsz, -⟩ := h.live hst
  simp only [copyoutTo, wp_bind, wp_getProc, wp_pagetableOf hr, wp_vm]
  exact wp_imp (copyoutFrom_exact hroot hsz _ va src le_rfl h.pages (h.kernelOnly hr)) fun _ m' h' =>
    ⟨h.grown hr h'.pages h'.grown, trivial⟩

theorem copyinFromUser_spec {va len : ℕ} (h : Inv K Y σ) (hst : (σ.proc p).state = .live) :
    wp (copyinFromUser K p va len) (fun _ σ' => Inv K Y σ' ∧ σ'.proc = σ.proc) never σ := by
  obtain ⟨r, f, hr, -, hroot, hsz, -⟩ := h.live hst
  simp only [copyinFromUser, wp_bind, wp_getProc, wp_pagetableOf hr, wp_vm]
  exact wp_imp (copyinFrom_exact hroot hsz _ va len le_rfl h.pages (h.kernelOnly hr)) fun _ m' h' =>
    ⟨h.grown hr h'.pages h'.grown, trivial⟩

theorem pageFault_spec {va : ℕ} (h : Inv K Y σ) (hst : (σ.proc p).state = .live) :
    wp (pageFault K p va) (fun _ σ' => Inv K Y σ') never σ := by
  obtain ⟨r, f, hr, -, hroot, hsz, -⟩ := h.live hst
  simp only [pageFault, wp_bind, wp_getProc, wp_pagetableOf hr, wp_vm, wp_pure]
  exact wp_imp (vmfault_fault h.pages hroot hsz) fun _ m' h' => h.grown hr h'.pages h'.grown

end Memory

section Exit

/-- States and parents change, and nobody gets or loses pages. -/
theorem Inv.relabel {proc' : Slot → Proc} (h : Inv K Y σ) (hr : ∀ p, (proc' p).pagetable = (σ.proc p).pagetable)
    (hf : ∀ p, (proc' p).trapframe = (σ.proc p).trapframe) (hs : ∀ p, Sane K σ.m (proc' p)) :
    Inv K Y { σ with proc := proc' } := by
  have ht : pagetables proc' = pagetables σ.proc := funext hr
  have hfr : trapframes proc' = trapframes σ.proc := funext hf
  refine ⟨?_, ?_, ?_, h.others_nodup, h.others_ne, hs⟩
  · simp only [roots, held, ht, hfr]
    exact h.pages
  · rw [ht]
    exact h.tables
  · rw [hfr]
    exact h.frames

theorem kexit_spec {status : BitVec 32} (h : Inv K Y σ) (hst : (σ.proc p).state = .live) :
    wp (kexit p status) (fun _ σ' => Inv K Y σ') (fun e => e = "init exiting" ∧ p = initproc) σ := by
  simp only [kexit, wp_ite, wp_throw, wp_bind, wp_modify, wp_modifyProc, Function.update_idem, Function.update_self]
  refine ⟨fun hp => ⟨trivial, hp⟩, fun _ => ?_⟩
  have h1 : Inv K Y { σ with proc := fun q =>
      if (σ.proc q).parent = some p then { σ.proc q with parent := some initproc } else σ.proc q } := by
    refine h.relabel (fun q => ?_) (fun q => ?_) fun q => ?_
    · split_ifs <;> rfl
    · split_ifs <;> rfl
    · split_ifs
      · exact ⟨(h.sane q).unused, (h.sane q).alive, (h.sane q).empty, (h.sane q).table⟩
      · exact h.sane q
  refine h1.same rfl rfl h1.pages (fun _ _ _ _ => rfl) ⟨by simp, fun _ => ?_, (h1.sane p).empty, (h1.sane p).table⟩
  refine (h1.sane p).alive (.inl ?_)
  dsimp only
  split_ifs <;> exact hst

theorem kwait_spec {addr : ℕ} (h : Inv K Y σ) (hst : (σ.proc p).state = .live) :
    wp (kwait K p addr) (fun _ σ' => Inv K Y σ') never σ := by
  simp only [kwait, wp_bind, wp_get]
  cases (List.finRange NPROC).find? fun q => (σ.proc q).parent = some p ∧ (σ.proc q).state = .zombie with
  | none => exact h
  | some q =>
    simp only [wp_ite, wp_bind, wp_pure]
    refine ⟨fun _ => ?_, fun _ => wp_imp (freeproc_spec h q) fun _ _ h' => h'.1⟩
    exact wp_imp (copyoutTo_spec h hst) fun _ σ1 h1 =>
      ⟨fun _ => wp_imp (freeproc_spec h1.1 q) fun _ _ h' => h'.1, fun _ => h1.1⟩

end Exit

end Xv6.Vm
