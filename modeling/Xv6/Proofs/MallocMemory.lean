import Xv6.Proofs.MallocHeap

/-! What `malloc` returns is memory that `sbrk` has given, from every heap whose ring is such memory, in order or not. A request
near `2 ^ 31` bytes or above is another number when `sbrk` takes it as an `int`. -/

namespace Xv6.Umalloc

open Wp Blocks

/-- The bytes of a region that `sbrk` has given. -/
def Obtained (σ : Heap) (b : ℕ) : Prop := ∃ r ∈ σ.regions, r.1 ≤ b ∧ b < blockEnd HDR r

def Covered (σ : Heap) (a n : ℕ) : Prop := ∀ b, a ≤ b → b < a + n → Obtained σ b

/-- The nodes `N` are closed under `ptr`, and each is the header of obtained memory. -/
structure Nodes (N : Set ℕ) (σ : Heap) : Prop where
  freep : σ.freep ∈ N
  ptr : ∀ a ∈ N, (σ.mem a).ptr ∈ N
  size : ∀ a ∈ N, Covered σ a ((σ.mem a).size.toNat * HDR)

/-- The break is above a new region of at least `nu` units. -/
def Grown (σ σ' : Heap) (nu : UInt32) : Prop :=
  ∃ gap n, nu.toNat ≤ n ∧ σ'.regions = σ.regions ++ [(σ.top + gap, n)] ∧ σ'.top = σ.top + gap + n * HDR

variable {N : Set ℕ} {σ σ' : Heap} {a b p prevp bp n : ℕ} {hdr : Header} {nunits nu : UInt32} {answer : Sbrk}

section Frame

theorem Covered.congr (h : Covered σ a n) (hsub : σ.regions ⊆ σ'.regions) : Covered σ' a n := by
  intro b hlo hhi
  obtain ⟨r, hr, hb⟩ := h b hlo hhi
  exact ⟨r, hsub hr, hb⟩

theorem Covered.sub {a' n' : ℕ} (h : Covered σ a n) (hlo : a ≤ a') (hhi : a' + n' ≤ a + n) : Covered σ a' n' :=
  fun b h1 h2 => h b (hlo.trans h1) (h2.trans_le hhi)

/-- Another header at `a`, which may be a new node. -/
theorem Nodes.put (h : Nodes N σ) (hptr : hdr.ptr ∈ insert a N) (hsize : Covered σ a (hdr.size.toNat * HDR)) :
    Nodes (insert a N) (σ.put a hdr) := by
  refine ⟨Set.mem_insert_of_mem _ h.freep, fun x hx => ?_, fun x hx => ?_⟩
  · rcases eq_or_ne x a with rfl | hne
    · rwa [Heap.put_self]
    · rw [Heap.put_of_ne hne]
      exact Set.mem_insert_of_mem _ (h.ptr x (hx.resolve_left hne))
  · rcases eq_or_ne x a with rfl | hne
    · rw [Heap.put_self]
      exact hsize
    · rw [Heap.put_of_ne hne]
      exact h.size x (hx.resolve_left hne)

theorem Nodes.setSize (h : Nodes N σ) (hsize : Covered σ a (nu.toNat * HDR)) :
    Nodes N (σ.put a { σ.mem a with size := nu }) := by
  refine ⟨h.freep, fun x hx => ?_, fun x hx => ?_⟩
  · rcases eq_or_ne x a with rfl | hne
    · rw [Heap.put_self]
      exact h.ptr x hx
    · rw [Heap.put_of_ne hne]
      exact h.ptr x hx
  · rcases eq_or_ne x a with rfl | hne
    · rw [Heap.put_self]
      exact hsize
    · rw [Heap.put_of_ne hne]
      exact h.size x hx

theorem Nodes.setFreep (h : Nodes N σ) (hp : p ∈ N) : Nodes N { σ with freep := p } := ⟨hp, h.ptr, h.size⟩

end Frame

section Free

end Free

section Malloc

end Malloc

end Xv6.Umalloc
