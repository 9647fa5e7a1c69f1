import Xv6.Lib.Machine
import Xv6.Lib.Wp

/-! `malloc` and `free` of `user/umalloc.c`. Addresses are numbers, and the pieces of memory that the allocator looks at are
headers. -/

namespace Xv6.Umalloc

open Wp Machine

/-- `union header`; pointers are addresses. -/
structure Header where
  ptr : ℕ
  size : UInt32
  deriving DecidableEq

/-- `sizeof(Header)` -/
def HDR : ℕ := 16

/-- The memory, `freep`, the break, how often `sbrk` has been called, and what it has given: where, and how many units. -/
structure Heap where
  mem : ℕ → Header
  freep : ℕ
  top : ℕ
  calls : ℕ
  regions : List (ℕ × ℕ)

/-- A loop does not end, or `sbrk` is asked to take memory back. -/
inductive Stop where
  | hang
  | shrink
  deriving DecidableEq

abbrev M := StateT Heap (Except Stop)

/-- `sbrk`: from how often it has been called, what it has given and how many bytes are asked for, either an error or how far
above the break the new region starts. -/
abbrev Sbrk := ℕ → List (ℕ × ℕ) → ℕ → Option ℕ

def load (p : ℕ) : M Header := do return (← get).mem p

def setPtr (p ptr : ℕ) : M Unit :=
  modify fun σ => { σ with mem := Function.update σ.mem p { σ.mem p with ptr := ptr } }

def setSize (p : ℕ) (size : UInt32) : M Unit :=
  modify fun σ => { σ with mem := Function.update σ.mem p { σ.mem p with size := size } }

def setFreep (p : ℕ) : M Unit := modify fun σ => { σ with freep := p }

/-- `sbrk(n)` -/
def sbrk (answer : Sbrk) (n : ℤ) : M (Option ℕ) := do
  let σ ← get
  if n < 0 then throw .shrink
  else
    match answer σ.calls σ.regions n.toNat with
    | none =>
      set { σ with calls := σ.calls + 1 }
      return none
    | some gap =>
      let p := σ.top + gap
      set { σ with calls := σ.calls + 1, top := p + n.toNat, regions := σ.regions ++ [(p, n.toNat / HDR)] }
      return some p

/-- The loop of `free`, `k` passes at most. -/
def findPlace (bp : ℕ) : ℕ → ℕ → M ℕ
  | 0, _ => throw .hang
  | k + 1, p => do
    let next := (← load p).ptr
    if p < bp ∧ bp < next then return p
    else if next ≤ p ∧ (p < bp ∨ bp < next) then return p
    else findPlace bp k next

/-- The block `a` is followed by the block `b`, and becomes one with it if it ends there. The two halves of `free` are
`link bp p->s.ptr` and `link p bp`. -/
def link (a b : ℕ) : M Unit := do
  let size := (← load a).size
  if a + size.toNat * HDR = b then
    setSize a (size + (← load b).size)
    setPtr a (← load b).ptr
  else setPtr a b

/-- There are no more blocks than addresses below the break. -/
def free (ap : ℕ) : M Unit := do
  let bp := ap - HDR
  let σ ← get
  let p ← findPlace bp (σ.top + 2) σ.freep
  link bp (← load p).ptr
  link p bp
  setFreep p

/-- The block list that `free` leaves, or null. -/
def morecore (answer : Sbrk) (nu : UInt32) : M ℕ := do
  let nu := if nu < 4096 then 4096 else nu
  match ← sbrk answer (BitVec.ofNat 32 (nu.toNat * HDR)).toInt with
  | none => return 0
  | some p =>
    setSize p nu
    free (p + HDR)
    return (← get).freep

/-- `nunits` from the block `p`, which comes after `prevp`. -/
def takeFrom (nunits : UInt32) (prevp p : ℕ) : M ℕ := do
  let size := (← load p).size
  if size = nunits then
    setPtr prevp (← load p).ptr
    setFreep prevp
    return p + HDR
  else
    setSize p (size - nunits)
    let p := p + (size - nunits).toNat * HDR
    setSize p nunits
    setFreep prevp
    return p + HDR

/-- The loop of `malloc`, `k` passes at most. -/
def search (answer : Sbrk) (nunits : UInt32) : ℕ → ℕ → ℕ → M ℕ
  | 0, _, _ => throw .hang
  | k + 1, prevp, p => do
    if nunits ≤ (← load p).size then takeFrom nunits prevp p
    else if p = (← get).freep then
      let p ← morecore answer nunits
      if p = 0 then return 0 else search answer nunits k p (← load p).ptr
    else search answer nunits k p (← load p).ptr

/-- How many headers' worth of memory a request takes, its own header included. -/
def nunitsOf (nbytes : UInt32) : UInt32 := UInt32.ofNat ((nbytes.toNat + HDR - 1) / HDR + 1)

/-- The address of the memory, or null. The ring is walked once, and once more after `morecore`. -/
def malloc (base : ℕ) (answer : Sbrk) (nbytes : UInt32) : M ℕ := do
  let nunits := nunitsOf nbytes
  if (← get).freep = 0 then
    setFreep base
    setPtr base base
    setSize base 0
  let σ ← get
  let prevp := σ.freep
  search answer nunits (2 * (σ.top + 2)) prevp (← load prevp).ptr

/-- The heap, and what the program has got and not freed: the pointer and for how many bytes it has asked. -/
structure Client where
  heap : Heap
  live : List (ℕ × ℕ)

/-- What the program does. `write x h` is any change that the bytes of a live piece of memory can make to what stands at `x`. -/
inductive Act where
  | malloc (nbytes : UInt32)
  | free (ap : ℕ)
  | write (x : ℕ) (h : Header)

/-- How a call ends, and what the program has then. -/
def ended {α : Type} (name : String) (live : α → List (ℕ × ℕ)) : Except Stop (α × Heap) → Outcome Client
  | .ok (a, heap) => .ok ⟨heap, live a⟩
  | .error _ => .panic name

def step (base : ℕ) (answer : Sbrk) : Act → Client → Outcome Client
  | .malloc nbytes, σ =>
    ended "malloc" (fun p => if p = 0 then σ.live else (p, nbytes.toNat) :: σ.live) (malloc base answer nbytes σ.heap)
  | .free ap, σ => ended "free" (fun _ => σ.live.eraseP (·.1 = ap)) (free ap σ.heap)
  | .write x h, σ => .ok { σ with heap := { σ.heap with mem := Function.update σ.heap.mem x h } }

/-- The program asks for less than `2 ^ 31 - 64` bytes, frees what it has got, and writes to its memory only. -/
def Proper (σ : Client) : Act → Prop
  | .malloc nbytes => nbytes.toNat < 2 ^ 31 - 64
  | .free ap => ∃ r ∈ σ.live, r.1 = ap
  | .write x _ => ∃ r ∈ σ.live, r.1 < x + HDR ∧ x < r.1 + r.2

/-- Before the first call. The heap is above `base`. -/
def boot (base : ℕ) (mem : ℕ → Header) : Client := ⟨⟨mem, 0, base + HDR, 0, []⟩, []⟩

end Xv6.Umalloc
