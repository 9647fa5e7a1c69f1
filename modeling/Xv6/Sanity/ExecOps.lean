import Xv6.Sanity.ExecPages
import Xv6.Sanity.ProcOps

/-! What `exec` does to the pages of all processes, and the operations of boot and of the other users of the allocator. -/

namespace Xv6.Vm

open Wp Holders Machine

variable {K : Kernel} {Y : Set ℕ} {σ σ' : St} {p q : Slot} {m' : Mem}

section Exec

theorem Fits.of_kernel {f : ℕ → Option Pte} {trapframe n : ℕ} (h : ∀ v, n ≤ v → f v = kernelLeaves K trapframe v) : Fits f n :=
  fun v hn h0 h1 => by
    rw [h v hn]
    exact kernelLeaves_fits K trapframe 0 v (Nat.zero_le _) h0 h1

/-- The new page table is given up, and nothing has happened. -/
theorem discard_table {r f sz : ℕ} (h : Inv K Y σ) (hnew : r ∉ roots σ.proc) (hsz : sz ≤ TRAPFRAME)
    (hp : Pages K (insert r (roots σ.proc)) (held σ.proc σ.others Y) m') (hl : SameLeaves (roots σ.proc) σ.m m')
    (hv : ∀ v, npages sz ≤ v → leaf m'.mem r v = kernelLeaves K f v) :
    wp (procFreepagetable K r sz) (fun _ m => Inv K Y { σ with m := m }) never m' := by
  refine wp_imp (procFreepagetable_spec hp (Set.mem_insert r _) hsz (.of_kernel hv)) fun _ m2 h2 => ?_
  rw [Set.insert_sdiff_self_of_notMem hnew] at h2
  exact h.memory h2.1 (hl.trans h2.2) fun f hf => .inl hf

/-- The new page table replaces the old one, which is given up. -/
theorem replace_table {r f sz old : ℕ} (h : Inv K Y σ) (hst : (σ.proc p).state = .live) (hold : (σ.proc p).pagetable = some old)
    (hf : (σ.proc p).trapframe = some f) (hnew : r ∉ roots σ.proc) (hsz : sz ≤ TRAPFRAME)
    (hp : Pages K (insert r (roots σ.proc)) (held σ.proc σ.others Y) m') (hl : SameLeaves (roots σ.proc) σ.m m')
    (hv : ∀ v, npages sz ≤ v → leaf m'.mem r v = kernelLeaves K f v) :
    wp (procFreepagetable K old (σ.proc p).sz)
      (fun _ m => Inv K Y ⟨m, Function.update σ.proc p { σ.proc p with pagetable := some r, sz := sz }, σ.others⟩) never m' := by
  have holdr : old ∈ roots σ.proc := mem_holdings hold
  have hne : r ≠ old := fun he => hnew (he ▸ holdr)
  have hfits : Fits (leaf m'.mem old) (npages (σ.proc p).sz) := by
    rw [hl.leaf old holdr]
    exact (h.sane p).fits hold
  refine wp_imp (procFreepagetable_spec hp (.inr holdr) ((h.sane p).table old hold).1 hfits) fun _ m2 h2 => ?_
  have ht : Function.update (pagetables σ.proc) p (some r) =
      Function.update (Function.update (pagetables σ.proc) p none) p (some r) := (Function.update_idem ..).symm
  have hf' : Function.update (trapframes σ.proc) p (σ.proc p).trapframe = trapframes σ.proc := Function.update_eq_self p _
  have hclear := h.tables.holdings_clear hold
  have hs : Sane K m2 { σ.proc p with pagetable := some r, sz := sz } := by
    refine ⟨fun hu => ?_, fun _ => Option.some_ne_none r, nofun, ?_⟩
    · cases hst.symm.trans hu
    · rintro _ ⟨⟩
      refine ⟨hsz, f, hf, fun v hn => ?_⟩
      rw [h2.2.leaf r ⟨Set.mem_insert r _, hne⟩, hv v hn]
  refine h.entry (e := { σ.proc p with pagetable := some r, sz := sz }) subset_rfl ?_ ?_ ?_ (fun q hq r' hr' => ?_) hs
  · rw [ht]
    refine (h.tables.clear p).give ?_ p
    rw [hclear]
    exact fun hin => hnew hin.1
  · rw [hf']
    exact h.frames
  · rw [ht, hf', holdings_give (Function.update_self ..), hclear, Set.insert_sdiff_singleton_comm hne]
    exact h2.1
  · have hin : r' ∈ roots σ.proc := mem_holdings hr'
    rw [h2.2.leaf r' ⟨.inr hin, fun he => hq (h.tables.inj hr' (he ▸ hold))⟩, hl.leaf r' hin]

theorem kexec_spec {img : Image} {argv : List (List UInt8)} (h : Inv K Y σ) (hst : (σ.proc p).state = .live)
    (hargv : ∀ arg ∈ argv, arg.length < PGSIZE) : wp (kexec K p img argv) (fun _ σ' => Inv K Y σ') never σ := by
  obtain ⟨old, f, hold, hf, holdr, hsz, hv⟩ := h.live hst
  simp only [kexec, wp_ite, wp_pure, wp_bind, wp_trapframeOf hf, wp_vm]
  refine ⟨fun _ => h, fun _ => wp_imp (procPagetable_spec f h.pages) fun res m1 h1 => ?_⟩
  obtain ⟨hl1, ⟨rfl, hp1⟩ | ⟨r, rfl, hnew, hp1, hr1⟩⟩ := h1
  · exact h.memory hp1 hl1 fun f hf => .inl hf
  have hb1 : Built K f (leaf m1.mem r) 0 := ⟨Nat.zero_le _, fun v hv => absurd hv (by simp [npages, PGSIZE]), fun v _ => congrFun hr1 v⟩
  have hroot := Set.mem_insert r (roots σ.proc)
  have hold1 : (St.proc { σ with m := m1 } p).pagetable = some old := hold
  simp only [wp_bind, wp_pagetableOf hold1, wp_getProc, wp_vm]
  refine wp_imp (loadSegments_spec img.segments 0 hp1 hroot hb1) fun res m2 h2 => ?_
  obtain ⟨ok, sz⟩ := res
  obtain ⟨hp2, hbut2, hb2⟩ := h2
  have hl2 := hl1.trans (hbut2.leaves hnew)
  simp only [wp_ite, wp_bind, wp_vm, wp_pure]
  refine ⟨fun _ => discard_table h hnew hb2.le hp2 hl2 hb2.above, fun _ => ?_⟩
  refine wp_imp (buildStack_spec hp2 hroot hb2 hargv) fun res m3 h3 => ?_
  obtain ⟨stack, sz⟩ := res
  obtain ⟨hp3, hbut3, hsz3, hv3⟩ := h3
  have hl3 := hl2.trans (hbut3.leaves hnew)
  dsimp only
  cases stack with
  | none =>
    simp only [wp_bind, wp_vm, wp_pure]
    exact discard_table h hnew hsz3 hp3 hl3 hv3
  | some sp =>
    have hheld : f ∈ held σ.proc σ.others Y := mem_holdings hf
    have hf3 : (St.proc { σ with m := m3 } p).trapframe = some f := hf
    simp only [wp_bind, wp_trapframeOf hf3, wp_vm, wp_memmove, wp_modifyProc, wp_pure,
      Function.update_idem, Function.update_self]
    obtain ⟨hp4, hfill⟩ := hp3.fill hheld (splice (splice (splice (m3.data f) A1 (leBytes 8 sp)) EPC
      (leBytes 8 img.entry.toNat)) SP (leBytes 8 sp))
    exact replace_table h hst hold hf hnew hsz3 hp4 (hl3.trans (hfill.mono (Set.subset_insert r _))) hv3

theorem forkret_spec {img : Image} (h : Inv K Y σ) (hst : (σ.proc initproc).state = .live) :
    wp (forkret K img) (fun _ σ' => Inv K Y σ') (fun e => e = "exec") σ := by
  simp only [forkret, wp_bind, wp_ite, wp_pure, wp_throw]
  refine wp_mono (kexec_spec h hst ?_) (fun ok σ' h' => ⟨fun _ => h', fun _ => trivial⟩) fun _ he => he.elim
  simp [PGSIZE]

theorem freeArgs_pages {roots pend : Set ℕ} {m : Mem} (pages : List ℕ) (h : Pages K roots pend m) (hnd : pages.Nodup)
    (hin : ∀ pa ∈ pages, pa ∈ pend) :
    wp (freeArgs K pages) (fun _ m' => Pages K roots (pend \ {pa | pa ∈ pages}) m' ∧ SameLeaves roots m m') never m := by
  induction pages generalizing pend m with
  | nil =>
    simp only [freeArgs, wp_pure, List.not_mem_nil, Set.ofPred_false, Set.sdiff_empty]
    exact ⟨h, .refl _ _⟩
  | cons pa pages ih =>
    obtain ⟨hpa, hnd⟩ := List.nodup_cons.mp hnd
    simp only [freeArgs, wp_bind]
    refine wp_imp (kfree_spec h (hin pa List.mem_cons_self)) fun _ m1 h1 => ?_
    have hin1 : ∀ x ∈ pages, x ∈ pend \ {pa} := fun x hx => ⟨hin x (List.mem_cons_of_mem pa hx), fun he => hpa (he ▸ hx)⟩
    refine wp_imp (ih h1.1 hnd hin1) fun _ m2 h2 => ⟨?_, h1.2.1.leaves.trans h2.2⟩
    convert h2.1 using 1
    ext x
    simp only [Set.mem_sdiff, Set.mem_ofPred_eq, List.mem_cons, Set.mem_singleton_iff, not_or, and_assoc]

theorem freeArgs_spec (pages : List ℕ) (h : Inv K {pa | pa ∈ pages} σ) (hnd : pages.Nodup) :
    wp (vm (freeArgs K pages)) (fun _ σ' => Inv K ∅ σ') never σ := by
  rw [wp_vm]
  refine wp_imp (freeArgs_pages pages h.pages hnd fun pa hpa => .inr (.inr hpa)) fun _ m' h' => ?_
  refine h.memory ?_ h'.2 fun f hf => hf.elim
  rw [← Set.sdiff_self (s := {pa | pa ∈ pages}), h.held_sdiff subset_rfl]
  exact h'.1

theorem fetchArgs_spec (args : List (Option (List UInt8))) {uargv i : ℕ} {pages : List ℕ} (h : Inv K {pa | pa ∈ pages} σ)
    (hst : (σ.proc p).state = .live) (hnd : pages.Nodup) :
    wp (fetchArgs K p uargv args i pages) (fun res σ' => Inv K {pa | pa ∈ res.2} σ' ∧ σ'.proc = σ.proc ∧ res.2.Nodup ∧
      (res.1 = true → ∀ arg ∈ args.filterMap id, arg.length < PGSIZE)) never σ := by
  induction args generalizing i pages σ with
  | nil =>
    rw [fetchArgs]
    simp only [wp_ite, wp_pure, wp_bind, wp_getProc]
    refine ⟨fun _ => ⟨h, trivial, hnd, by simp⟩, fun _ => ⟨fun _ => ⟨h, trivial, hnd, by simp⟩, fun _ => ?_⟩⟩
    refine wp_imp (copyinFromUser_spec h hst) fun ok σ1 h1 => ⟨fun _ => ⟨h1.1, h1.2, hnd, fun _ => by simp⟩, fun _ => ⟨h1.1, h1.2, hnd, by simp⟩⟩
  | cons arg args ih =>
    rw [fetchArgs]
    simp only [wp_ite, wp_pure, wp_bind, wp_getProc]
    refine ⟨fun _ => ⟨h, trivial, hnd, by simp⟩, fun _ => ⟨fun _ => ⟨h, trivial, hnd, by simp⟩, fun _ => ?_⟩⟩
    refine wp_imp (copyinFromUser_spec h hst) fun ok σ1 h1 => ⟨fun _ => ?_, fun _ => ⟨h1.1, h1.2, hnd, by simp⟩⟩
    obtain ⟨h1, hproc1⟩ := h1
    refine wp_imp (vm_kalloc_spec h1) fun res σ2 hres => ?_
    obtain ⟨m2, rfl, -, ⟨rfl, h2⟩ | ⟨pa, rfl, hpa, h2⟩⟩ := hres
    · exact ⟨h2, hproc1, hnd, by simp⟩
    have hset : insert pa {x | x ∈ pages} = {x | x ∈ pages ++ [pa]} := by
      ext x
      simp only [Set.mem_insert_iff, Set.mem_ofPred_eq, List.mem_append, List.mem_singleton, or_comm]
    have hnd2 : (pages ++ [pa]).Nodup := by
      have hpa' : pa ∉ pages := fun hin => hpa (.inr (.inr hin))
      exact List.nodup_append.mpr ⟨hnd, List.nodup_singleton pa, fun a ha b hb => by
        rintro rfl
        exact hpa' (List.mem_singleton.mp hb ▸ ha)⟩
    rw [hset] at h2
    simp only [wp_ite, wp_pure]
    refine ⟨fun harg => ?_, fun _ => ⟨h2, hproc1, hnd2, by simp⟩⟩
    refine wp_imp (ih h2 (by rw [hproc1]; exact hst) hnd2) fun res σ3 h3 => ⟨h3.1, h3.2.1.trans hproc1, h3.2.2.1, fun hok len hlen => ?_⟩
    cases arg with
    | none => simp at harg
    | some n =>
      rw [List.filterMap_cons_some (f := id) rfl, List.mem_cons] at hlen
      rcases hlen with rfl | hlen
      · simpa using harg
      · exact h3.2.2.2 hok len hlen

theorem sysExec_spec {img : Image} {uargv : ℕ} {args : List (Option (List UInt8))} (h : Inv K ∅ σ) (hst : (σ.proc p).state = .live) :
    wp (sysExec K p img uargv args) (fun _ σ' => Inv K ∅ σ') never σ := by
  have h0 : Inv K {pa | pa ∈ ([] : List ℕ)} σ := by simpa using h
  simp only [sysExec, wp_bind]
  refine wp_imp (fetchArgs_spec args h0 hst .nil) fun res σ1 h1 => ?_
  obtain ⟨ok, pages⟩ := res
  obtain ⟨h1, hproc1, hnd, hargs⟩ := h1
  have hst1 : (σ1.proc p).state = .live := by rwa [hproc1]
  simp only [wp_ite, wp_bind, wp_pure]
  refine ⟨fun hok => wp_imp (kexec_spec h1 hst1 (hargs hok)) fun _ σ2 h2 => freeArgs_spec pages h2 hnd, fun _ => freeArgs_spec pages h1 hnd⟩

end Exec

section Boot

theorem userinit_spec (h : Inv K Y σ) : wp (userinit K) (fun _ σ' => Inv K Y σ') (fun e => e = "null pointer") σ := by
  simp only [userinit, wp_bind]
  refine wp_mono (allocproc_spec h) (fun res σ1 h1 => ?_) fun _ he => he.elim
  obtain ⟨h1, hnp⟩ := h1
  cases res with
  | none => rfl
  | some np =>
    obtain ⟨-, -, -, -, r, f, hr, -⟩ := hnp np rfl
    refine h1.same rfl rfl h1.pages (fun _ _ _ _ => rfl) ⟨by simp, fun _ => ?_, (h1.sane np).empty, (h1.sane np).table⟩
    rw [hr]
    exact Option.some_ne_none r

theorem otherAlloc_spec (h : Inv K ∅ σ) : wp otherAlloc (fun _ σ' => Inv K ∅ σ') never σ := by
  simp only [otherAlloc, wp_bind]
  refine wp_imp (vm_kalloc_spec h) fun res σ1 h1 => ?_
  obtain ⟨m1, rfl, -, ⟨rfl, h1⟩ | ⟨c, rfl, hc, h1⟩⟩ := h1
  · exact h1
  have hset : {f | f ∈ σ.others} ∪ insert c ∅ = {f | f ∈ c :: σ.others} ∪ ∅ := by
    ext f
    simp
  simp only [wp_modify]
  refine ⟨?_, h1.tables, ?_, List.nodup_cons.mpr ⟨fun hin => hc (.inr (.inl hin)), h1.others_nodup⟩, fun _ _ => id, h1.sane⟩
  · have hp := h1.pages
    rwa [held, hset] at hp
  · have hf := h1.frames
    rwa [hset] at hf

theorem otherFree_spec {pa : ℕ} (h : Inv K ∅ σ) (hpa : pa ∈ σ.others) : wp (otherFree K pa) (fun _ σ' => Inv K ∅ σ') never σ := by
  simp only [otherFree, wp_bind, wp_vm, wp_modify]
  refine wp_imp (kfree_spec h.pages (.inr (.inl hpa))) fun _ m1 h1 => ?_
  have hset : {f | f ∈ σ.others.erase pa} ∪ ∅ = ({f | f ∈ σ.others} ∪ ∅) \ {pa} := by
    ext f
    simp [h.others_nodup.mem_erase_iff, and_comm]
  refine ⟨?_, h.tables, h.frames.elsewhere ?_, h.others_nodup.erase pa, fun _ _ => id, fun p => (h.sane p).congr fun r hr => ?_⟩
  · rw [held, hset, h.frames.holdings_sdiff (by simpa using hpa)]
    exact h1.1
  · rw [hset]
    exact fun f hf => .inl hf.1
  · exact h1.2.1.leaves.leaf r (mem_holdings hr)

end Boot

/-- A call of `sbrk` that goes past the user part of the address space. -/
def Overgrows (a : Act) (σ : St) : Prop :=
  match a with
  | .sbrk p n _ => 0 < n.toInt ∧ TRAPFRAME < addSz (σ.proc p).sz n.toInt
  | _ => False

/-- What a step can panic with. -/
def Panics (a : Act) (σ : St) (e : String) : Prop :=
  match a with
  | .userinit => e = "null pointer"
  | .forkret _ => e = "exec"
  | .exit p _ => e = "init exiting" ∧ p = initproc
  | _ => e = "mappages: remap" ∧ Overgrows a σ

theorem Act.run_spec {a : Act} (h : Inv K ∅ σ) (ha : a.enabled σ) :
    wp (a.run K) (fun _ σ' => Inv K ∅ σ' ∨ Overgrows a σ ∧ ∃ p, TRAPFRAME < (σ'.proc p).sz) (Panics a σ) σ := by
  have keep : ∀ {α : Type} {f : M α} {E : String → Prop}, wp f (fun _ σ' => Inv K ∅ σ') E σ →
      wp f (fun _ σ' => Inv K ∅ σ' ∨ Overgrows a σ ∧ ∃ p, TRAPFRAME < (σ'.proc p).sz) E σ :=
    fun hf => wp_mono hf (fun _ _ h' => .inl h') fun _ he => he
  have keep' : ∀ {α : Type} {f : M α} {E : String → Prop}, wp f (fun _ σ' => Inv K ∅ σ') never σ →
      wp f (fun _ σ' => Inv K ∅ σ' ∨ Overgrows a σ ∧ ∃ p, TRAPFRAME < (σ'.proc p).sz) E σ :=
    fun hf => keep (wp_imp hf fun _ _ h' => h')
  cases a with
  | userinit => exact keep (userinit_spec h)
  | forkret img => exact keep (forkret_spec h (ha initproc rfl))
  | fork p => exact wp_discard.mpr (keep' (kfork_spec h (ha p rfl)))
  | exec p img uargv args => exact wp_discard.mpr (keep' (sysExec_spec h (ha p rfl)))
  | sbrk p n t =>
    refine wp_discard.mpr (wp_mono (sysSbrk_spec h (ha p rfl)) (fun _ σ' h' => ?_) fun _ he => he)
    exact h'.imp_right fun hover => ⟨hover.1, p, hover.2⟩
  | fault p va => exact wp_discard.mpr (keep' (pageFault_spec h (ha p rfl)))
  | copyout p va len => exact wp_discard.mpr (keep' (wp_imp (copyoutTo_spec h (ha p rfl)) fun _ _ h' => h'.1))
  | copyin p va len => exact wp_discard.mpr (keep' (wp_imp (copyinFromUser_spec h (ha p rfl)) fun _ _ h' => h'.1))
  | exit p status => exact keep (kexit_spec h (ha p rfl))
  | wait p addr => exact wp_discard.mpr (keep' (kwait_spec h (ha p rfl)))
  | kalloc => exact keep' (otherAlloc_spec h)
  | kfree pa => exact keep' (otherFree_spec h ha)

section Steps

variable {a : Act} {u : St}

theorem step_ok (h : step K a σ = .ok u) : a.enabled σ ∧ a.run K σ = .ok ((), u) := by
  unfold step at h
  split_ifs at h with ha
  cases hrun : a.run K σ with
  | ok r =>
    simp only [hrun, Outcome.ok.injEq] at h
    exact ⟨ha, by rw [← h]⟩
  | error e => simp only [hrun, reduceCtorEq] at h

theorem step_panic {e : String} (h : step K a σ = .panic e) : a.enabled σ ∧ a.run K σ = .error e := by
  unfold step at h
  split_ifs at h with ha
  cases hrun : a.run K σ with
  | ok r => simp only [hrun, reduceCtorEq] at h
  | error e' =>
    simp only [hrun, Outcome.panic.injEq] at h
    exact ⟨ha, by rw [h]⟩

/-- One step keeps the invariant, unless a process outgrows the user part of its address space. -/
theorem Inv.step (h : Inv K ∅ σ) (hs : Vm.step K a σ = .ok u) : Inv K ∅ u ∨ Overgrows a σ ∧ ∃ p, TRAPFRAME < (u.proc p).sz := by
  obtain ⟨ha, hrun⟩ := step_ok hs
  have hok := wp_ok (Act.run_spec h ha) hrun
  exact hok

theorem Inv.panics {e : String} (h : Inv K ∅ σ) (hs : Vm.step K a σ = .panic e) : Panics a σ e := by
  obtain ⟨ha, hrun⟩ := step_panic hs
  exact wp_error (Act.run_spec h ha) hrun

theorem Panics.not_memory {e : String} (h : Panics a σ e) :
    e ≠ "kfree" ∧ e ≠ "freewalk: leaf" ∧ e ≠ "walk" ∧ (e = "mappages: remap" → Overgrows a σ) := by
  cases a with
  | userinit =>
    obtain rfl := h
    exact ⟨by decide, by decide, by decide, nofun⟩
  | forkret img =>
    obtain rfl := h
    exact ⟨by decide, by decide, by decide, nofun⟩
  | exit p status =>
    obtain ⟨rfl, -⟩ := h
    exact ⟨by decide, by decide, by decide, nofun⟩
  | _ =>
    obtain ⟨rfl, hover⟩ := h
    exact ⟨by decide, by decide, by decide, fun _ => hover⟩

end Steps

section Start

variable {freelist others : List ℕ}

theorem boot_inv (hnd : (freelist ++ others).Nodup) (hall : ∀ pa, pa ∈ freelist ++ others ↔ pa ∈ area K) :
    Inv K ∅ (boot freelist others) := by
  obtain ⟨hf, ho, hdis⟩ := List.nodup_append.mp hnd
  have hval : ∀ s, Forest.val (nextOf (boot freelist others).m.mem) (roots (boot freelist others).proc) counts s = none := by
    rintro ⟨r, path⟩
    refine Option.eq_none_iff_forall_ne_some.mpr fun b hb => ?_
    obtain ⟨⟨⟨p, hp⟩ | hp, -⟩, -⟩ := Forest.val_some.mp hb
    · cases hp
    · exact hp
  have hheld : ∀ f, f ∈ held (boot freelist others).proc others ∅ ↔ f ∈ others := by
    refine fun f => ⟨?_, fun hin => .inr (.inl hin)⟩
    rintro (⟨p, hp⟩ | hin | hin)
    · cases hp
    · exact hin
    · exact hin.elim
  refine ⟨⟨⟨?_, ?_, ?_, ?_⟩, hf, fun b hb => (hall b).mp (List.mem_append_left _ hb), ?_⟩, ⟨nofun, nofun⟩, ⟨nofun, nofun⟩, ho,
    fun _ _ => id, fun p => .dead⟩
  · intro x y b hx
    rw [hval] at hx
    cases hx
  · intro x b hx
    rw [hval] at hx
    cases hx
  · intro b hb hm
    refine .inl ((hheld b).mpr ?_)
    exact (List.mem_append.mp ((hall b).mpr hb)).resolve_left (of_decide_eq_true hm)
  · intro b hb
    have hin := (hheld b).mp hb
    exact ⟨(hall b).mp (List.mem_append_right _ hin), decide_eq_true fun hfree => hdis b hfree b hin rfl⟩
  · rintro r (⟨p, hp⟩ | hp)
    · cases hp
    · exact hp.elim

/-- A kernel that leaves 32 pages. -/
def smallKernel : Kernel := ⟨0x87fe0000, 0x80007000, by decide⟩

def smallFreelist : List ℕ := (List.range 32).map fun i => 0x87fe0000 + i * PGSIZE

theorem mem_smallFreelist (pa : ℕ) : pa ∈ smallFreelist ++ [] ↔ pa ∈ area smallKernel := by
  have hstop : PHYSTOP = 0x88000000 := by decide
  have hsize : PGSIZE = 4096 := rfl
  rw [List.append_nil, smallFreelist, List.mem_map]
  constructor
  · rintro ⟨i, hi, rfl⟩
    have hi := List.mem_range.mp hi
    refine ⟨?_, Nat.le_add_right _ _, ?_⟩
    · rw [hsize]
      omega
    · rw [hsize, hstop]
      omega
  · rintro ⟨hal, hlo, hhi⟩
    have hlo : 0x87fe0000 ≤ pa := hlo
    rw [hsize] at hal ⊢
    rw [hstop] at hhi
    exact ⟨(pa - 0x87fe0000) / 4096, List.mem_range.mpr (by omega), by omega⟩

end Start

end Xv6.Vm
