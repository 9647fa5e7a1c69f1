import Xv6.Lib.Holders
import Xv6.Sanity.NewTables

/-! The pages of all processes. Between operations, and inside them up to the pages that the running operation has in
hand, every page of the allocator has one owner. -/

namespace Xv6.Vm

open Wp Holders

section Wp

variable {σ : St} {E : String → Prop}

@[simp] theorem wp_vm {α : Type} {f : VmM α} {Q : α → St → Prop} :
    wp (vm f) Q E σ ↔ wp f (fun a m => Q a { σ with m := m }) E σ.m := by
  simp only [wp, vm]
  cases f σ.m with
  | ok r => rfl
  | error e => rfl

@[simp] theorem wp_getProc {p : Slot} {Q : Proc → St → Prop} : wp (getProc p) Q E σ ↔ Q (σ.proc p) σ := Iff.rfl

@[simp] theorem wp_modifyProc {p : Slot} {f : Proc → Proc} {Q : Unit → St → Prop} :
    wp (modifyProc p f) Q E σ ↔ Q () { σ with proc := Function.update σ.proc p (f (σ.proc p)) } := Iff.rfl

end Wp

def pagetables (proc : Slot → Proc) : Slot → Option ℕ := fun p => (proc p).pagetable

def trapframes (proc : Slot → Proc) : Slot → Option ℕ := fun p => (proc p).trapframe

/-- The page tables of the processes. -/
def roots (proc : Slot → Proc) : Set ℕ := holdings (pagetables proc) ∅

/-- The pages outside of page tables: trapframes, those of other users of the allocator, and `Y`. -/
def held (proc : Slot → Proc) (others : List ℕ) (Y : Set ℕ) : Set ℕ := holdings (trapframes proc) ({f | f ∈ others} ∪ Y)

/-- What hangs from an entry of the process table fits together. -/
structure Sane (K : Kernel) (m : Mem) (e : Proc) : Prop where
  unused : e.state = .unused → e.pagetable = none ∧ e.trapframe = none
  alive : e.state = .live ∨ e.state = .zombie → e.pagetable ≠ none
  empty : e.pagetable = none → e.sz = 0
  table : ∀ r, e.pagetable = some r → e.sz ≤ TRAPFRAME ∧
    ∃ f, e.trapframe = some f ∧ ∀ v, npages e.sz ≤ v → leaf m.mem r v = kernelLeaves K f v

/-- The invariant, with the pages `Y` in the hands of the running operation. -/
structure Inv (K : Kernel) (Y : Set ℕ) (σ : St) : Prop where
  pages : Pages K (roots σ.proc) (held σ.proc σ.others Y) σ.m
  tables : Apart (pagetables σ.proc) ∅
  frames : Apart (trapframes σ.proc) ({f | f ∈ σ.others} ∪ Y)
  others_nodup : σ.others.Nodup
  others_ne : ∀ f ∈ σ.others, f ∉ Y
  sane : ∀ p, Sane K σ.m (σ.proc p)

variable {K : Kernel} {Y : Set ℕ} {σ σ' : St} {p q : Slot} {m : Mem}

@[simp] theorem pagetables_update (proc : Slot → Proc) (p : Slot) (e : Proc) :
    pagetables (Function.update proc p e) = Function.update (pagetables proc) p e.pagetable := by
  funext q
  by_cases hq : q = p <;> simp [pagetables, hq]

@[simp] theorem trapframes_update (proc : Slot → Proc) (p : Slot) (e : Proc) :
    trapframes (Function.update proc p e) = Function.update (trapframes proc) p e.trapframe := by
  funext q
  by_cases hq : q = p <;> simp [trapframes, hq]

section Sane

variable {e : Proc} {m' : Mem} {r : ℕ}

theorem Sane.congr (h : Sane K m e) (hl : ∀ r, e.pagetable = some r → leaf m'.mem r = leaf m.mem r) : Sane K m' e where
  unused := h.unused
  alive := h.alive
  empty := h.empty
  table := fun r hr => by
    obtain ⟨hsz, f, hf, hv⟩ := h.table r hr
    exact ⟨hsz, f, hf, fun v hn => by rw [hl r hr]; exact hv v hn⟩

theorem Sane.fits (h : Sane K m e) (hr : e.pagetable = some r) : Fits (leaf m.mem r) (npages e.sz) := by
  obtain ⟨-, f, -, hv⟩ := h.table r hr
  intro v hn h0 h1
  rw [hv v hn]
  exact kernelLeaves_fits K f 0 v (Nat.zero_le _) h0 h1

theorem Sane.no_table (h : Sane K m e) (hf : e.trapframe = none) : e.pagetable = none := by
  cases hr : e.pagetable with
  | none => rfl
  | some r =>
    obtain ⟨-, f, hf', -⟩ := h.table r hr
    rw [hf] at hf'
    cases hf'

theorem Sane.dead : Sane K m ⟨.unused, none, none, 0, none, 0⟩ :=
  ⟨fun _ => ⟨rfl, rfl⟩, fun h => h.elim nofun nofun, fun _ => rfl, nofun⟩

end Sane

/-- Memory has changed, and the page tables of the processes have not. -/
theorem Inv.memory {m' : Mem} {Y' : Set ℕ} (h : Inv K Y σ) (hp : Pages K (roots σ.proc) (held σ.proc σ.others Y') m')
    (hl : SameLeaves (roots σ.proc) σ.m m') (hY : ∀ f ∈ Y', f ∈ Y ∨ f ∉ held σ.proc σ.others Y) :
    Inv K Y' { σ with m := m' } where
  pages := hp
  tables := h.tables
  frames := h.frames.elsewhere fun f hf => hf.elim (fun ho => .inl (.inl ho)) fun hin => (hY f hin).imp_left .inr
  others_nodup := h.others_nodup
  others_ne := fun f hf hin => (hY f hin).elim (h.others_ne f hf) fun hn => hn (.inr (.inl hf))
  sane := fun p => (h.sane p).congr fun r hr => hl.leaf r (mem_holdings hr)

/-- The entry of `p` is replaced; its new page table and its new trapframe are its old ones, or new, or none. -/
theorem Inv.entry {e : Proc} {m' : Mem} {Y' : Set ℕ} (h : Inv K Y σ) (hY : Y' ⊆ Y)
    (ht : Apart (Function.update (pagetables σ.proc) p e.pagetable) ∅)
    (hf : Apart (Function.update (trapframes σ.proc) p e.trapframe) ({f | f ∈ σ.others} ∪ Y'))
    (hp : Pages K (holdings (Function.update (pagetables σ.proc) p e.pagetable) ∅)
      (holdings (Function.update (trapframes σ.proc) p e.trapframe) ({f | f ∈ σ.others} ∪ Y')) m')
    (hl : ∀ q ≠ p, ∀ r, (σ.proc q).pagetable = some r → leaf m'.mem r = leaf σ.m.mem r) (hs : Sane K m' e) :
    Inv K Y' ⟨m', Function.update σ.proc p e, σ.others⟩ where
  pages := by
    simp only [roots, held, pagetables_update, trapframes_update]
    exact hp
  tables := by
    rw [pagetables_update]
    exact ht
  frames := by
    rw [trapframes_update]
    exact hf
  others_nodup := h.others_nodup
  others_ne := fun f hf hin => h.others_ne f hf (hY hin)
  sane := fun q => by
    by_cases hqp : q = p
    · subst hqp
      simpa using hs
    · simp only [Function.update_of_ne hqp]
      exact (h.sane q).congr (hl q hqp)

/-- The entry of `p` is replaced by one with the same pages. -/
theorem Inv.same {e : Proc} {m' : Mem} (h : Inv K Y σ) (hr : e.pagetable = (σ.proc p).pagetable)
    (hf : e.trapframe = (σ.proc p).trapframe) (hp : Pages K (roots σ.proc) (held σ.proc σ.others Y) m')
    (hl : ∀ q ≠ p, ∀ r, (σ.proc q).pagetable = some r → leaf m'.mem r = leaf σ.m.mem r) (hs : Sane K m' e) :
    Inv K Y ⟨m', Function.update σ.proc p e, σ.others⟩ := by
  have ht : Function.update (pagetables σ.proc) p e.pagetable = pagetables σ.proc := by
    rw [hr]
    exact Function.update_eq_self p _
  have hf' : Function.update (trapframes σ.proc) p e.trapframe = trapframes σ.proc := by
    rw [hf]
    exact Function.update_eq_self p _
  refine h.entry subset_rfl ?_ ?_ ?_ hl hs
  · rw [ht]
    exact h.tables
  · rw [hf']
    exact h.frames
  · rw [ht, hf']
    exact hp

section Alloc

theorem held_insert (proc : Slot → Proc) (others : List ℕ) (Y : Set ℕ) (c : ℕ) :
    held proc others (insert c Y) = insert c (held proc others Y) := by
  rw [held, held, Set.union_insert, holdings_insert]

theorem Inv.held_sdiff {C : Set ℕ} (h : Inv K Y σ) (hC : C ⊆ Y) :
    held σ.proc σ.others (Y \ C) = held σ.proc σ.others Y \ C := by
  rw [held, held, ← h.frames.holdings_sdiff fun f hf => .inr (hC hf)]
  congr 1
  ext f
  simp only [Set.mem_union, Set.mem_ofPred_eq, Set.mem_sdiff]
  constructor
  · rintro (hf | ⟨hf, hne⟩)
    · exact ⟨.inl hf, fun he => h.others_ne f hf (hC he)⟩
    · exact ⟨.inr hf, hne⟩
  · rintro ⟨hf | hf, hne⟩
    · exact .inl hf
    · exact .inr ⟨hf, hne⟩

theorem vm_kalloc_spec (h : Inv K Y σ) :
    wp (vm kalloc) (fun res σ' => ∃ m', σ' = { σ with m := m' } ∧ SameLeaves (roots σ.proc) σ.m m' ∧
      ((res = none ∧ Inv K Y σ') ∨ ∃ c, res = some c ∧ c ∉ held σ.proc σ.others Y ∧ Inv K (insert c Y) σ')) never σ := by
  rw [wp_vm]
  refine wp_imp (kalloc_spec h.pages) fun res m' hres => ?_
  rcases hres with ⟨rfl, rfl⟩ | ⟨c, rfl, -, hc, hp, hsame⟩
  · exact ⟨_, rfl, .refl _ _, .inl ⟨rfl, h⟩⟩
  · refine ⟨m', rfl, hsame.leaves, .inr ⟨c, rfl, hc, h.memory ?_ hsame.leaves ?_⟩⟩
    · rwa [held_insert]
    · rintro f (rfl | hf)
      · exact .inr hc
      · exact .inl hf

end Alloc

/-- `freeproc` gives back what hangs from the entry. -/
theorem freeproc_spec (h : Inv K Y σ) (p : Slot) :
    wp (freeproc K p) (fun _ σ' => Inv K Y σ' ∧ σ'.proc = Function.update σ.proc p ⟨.unused, none, none, 0, none, 0⟩ ∧
      σ'.others = σ.others ∧ SameLeaves (roots σ'.proc) σ.m σ'.m) never σ := by
  have hclear : ∀ {m'}, Pages K (holdings (Function.update (pagetables σ.proc) p none) ∅)
      (holdings (Function.update (trapframes σ.proc) p none) ({f | f ∈ σ.others} ∪ Y)) m' →
      SameLeaves (holdings (Function.update (pagetables σ.proc) p none) ∅) σ.m m' →
      Inv K Y ⟨m', Function.update σ.proc p ⟨.unused, none, none, 0, none, 0⟩, σ.others⟩ ∧
        SameLeaves (roots (Function.update σ.proc p ⟨.unused, none, none, 0, none, 0⟩)) σ.m m' := by
    intro m' hp hl
    refine ⟨h.entry subset_rfl (h.tables.clear p) (h.frames.clear p) hp (fun q hqp r hq => hl.leaf r ?_) .dead, ?_⟩
    · exact mem_holdings (p := q) (by rw [Function.update_of_ne hqp]; exact hq)
    · rw [roots, pagetables_update]
      exact hl
  simp only [freeproc, wp_bind, wp_getProc]
  cases hf : (σ.proc p).trapframe with
  | none =>
    have hr := (h.sane p).no_table hf
    simp only [hr, wp_bind, wp_modifyProc, Function.update_idem]
    have ht : Function.update (pagetables σ.proc) p none = pagetables σ.proc := by
      rw [← hr]
      exact Function.update_eq_self p _
    have hf' : Function.update (trapframes σ.proc) p none = trapframes σ.proc := by
      rw [← hf]
      exact Function.update_eq_self p _
    rw [ht, hf'] at hclear
    obtain ⟨hinv, hl⟩ := hclear h.pages (.refl _ _)
    exact ⟨hinv, trivial, trivial, hl⟩
  | some f =>
    simp only [wp_bind, wp_vm, wp_modifyProc]
    refine wp_imp (kfree_spec h.pages (mem_holdings hf)) fun _ m1 h1 => ?_
    obtain ⟨h1, hsame1, -⟩ := h1
    have hl1 := hsame1.leaves
    rw [h.frames.holdings_clear hf] at hclear
    cases hr : (σ.proc p).pagetable with
    | none =>
      simp only [wp_modifyProc, Function.update_idem]
      have ht : Function.update (pagetables σ.proc) p none = pagetables σ.proc := by
        rw [← hr]
        exact Function.update_eq_self p _
      rw [ht] at hclear
      obtain ⟨hinv, hl⟩ := hclear h1 hl1
      exact ⟨hinv, trivial, trivial, hl⟩
    | some r =>
      simp only [wp_bind, wp_vm, wp_modifyProc, Function.update_idem]
      have hr' : r ∈ roots σ.proc := mem_holdings hr
      have hfits : Fits (leaf m1.mem r) (npages (σ.proc p).sz) := by
        rw [hl1.leaf r hr']
        exact (h.sane p).fits hr
      refine wp_imp (procFreepagetable_spec h1 hr' ((h.sane p).table r hr).1 hfits) fun _ m2 h2 => ?_
      rw [h.tables.holdings_clear hr] at hclear
      obtain ⟨hinv, hl⟩ := hclear h2.1 ((hl1.mono Set.sdiff_subset).trans h2.2)
      exact ⟨hinv, trivial, trivial, hl⟩

end Xv6.Vm
