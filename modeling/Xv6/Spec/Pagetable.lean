import Xv6.Spec.Vm

/-! The page tables of `vm.c` word by word: a page-table page is 512 words of 64 bits, and an entry is taken apart and put
together by the macros of `riscv.h`. -/

namespace Xv6.Pagetable

open Wp Vm

abbrev Word := BitVec 64

def PTE_V : Word := 1 <<< 0
def PTE_R : Word := 1 <<< 1
def PTE_W : Word := 1 <<< 2
def PTE_X : Word := 1 <<< 3
def PTE_U : Word := 1 <<< 4

def PA2PTE (pa : Word) : Word := (pa >>> 12) <<< 10
def PTE2PA (pte : Word) : Word := (pte >>> 10) <<< 12
def PTE_FLAGS (pte : Word) : Word := pte &&& 0x3FF

def PXMASK : Word := 0x1FF
def PX (level : ℕ) (va : Word) : Fin 512 := Fin.ofNat 512 ((va >>> (12 + 9 * level)) &&& PXMASK).toNat

/-- The free list, and the memory as far as it is used for page tables, by the address of the page. -/
structure Mem where
  freelist : List ℕ
  mem : ℕ → Fin 512 → Word

abbrev PtM := StateT Mem (Except String)

/-- Fill a page with the byte `b`. -/
def memset (pa b : ℕ) : PtM Unit :=
  modify fun s => { s with mem := Function.update s.mem pa fun _ => BitVec.ofNat 64 (0x0101010101010101 * b) }

def readPte (pte : ℕ × Fin 512) : PtM Word := do
  let s ← get
  pure (s.mem pte.1 pte.2)

def setPte (pte : ℕ × Fin 512) (w : Word) : PtM Unit :=
  modify fun s => { s with mem := Function.update s.mem pte.1 (Function.update (s.mem pte.1) pte.2 w) }

def kfree (K : Kernel) (pa : ℕ) : PtM Unit := do
  if pa % PGSIZE ≠ 0 ∨ pa < K.kend ∨ PHYSTOP ≤ pa then throw "kfree"
  else
    memset pa 1
    modify fun s => { s with freelist := pa :: s.freelist }

def kalloc : PtM (Option ℕ) := do
  let s ← get
  match s.freelist with
  | [] => pure none
  | pa :: rest =>
    set { s with freelist := rest }
    memset pa 5
    pure (some pa)

/-- One round of the loop of `walk`. -/
def walkLevel (pagetable : ℕ) (i : Fin 512) (alloc : Bool) : PtM (Option ℕ) := do
  let pte ← readPte (pagetable, i)
  if pte &&& PTE_V ≠ 0 then pure (some (PTE2PA pte).toNat)
  else if !alloc then pure none
  else
    match ← kalloc with
    | none => pure none
    | some pagetable' =>
      memset pagetable' 0
      setPte (pagetable, i) (PA2PTE (BitVec.ofNat 64 pagetable') ||| PTE_V)
      pure (some pagetable')

def walk (pagetable : ℕ) (va : Word) (alloc : Bool) : PtM (Option (ℕ × Fin 512)) := do
  if MAXVA ≤ va.toNat then throw "walk"
  else
    match ← walkLevel pagetable (PX 2 va) alloc with
    | none => pure none
    | some pagetable =>
      match ← walkLevel pagetable (PX 1 va) alloc with
      | none => pure none
      | some pagetable => pure (some (pagetable, PX 0 va))

/-- The physical address, or 0. -/
def walkaddr (pagetable : ℕ) (va : Word) : PtM Word := do
  if MAXVA ≤ va.toNat then pure 0
  else
    match ← walk pagetable va false with
    | none => pure 0
    | some loc =>
      let pte ← readPte loc
      if pte &&& PTE_V = 0 then pure 0
      else if pte &&& PTE_U = 0 then pure 0
      else pure (PTE2PA pte)

def PGROUNDDOWN (a : Word) : Word := a - a % 4096

/-- The inner loop of `copyinstr`: whether a NUL was found, and what is stored. Not every physical address can be read. -/
def copyBytes (ram : Word → Option UInt8) : ℕ → Word → PtM (Bool × List UInt8)
  | 0, _ => pure (false, [])
  | n + 1, p =>
    match ram p with
    | none => throw "fault"
    | some c => do
      if c = 0 then pure (true, [0])
      else
        let (gotNull, out) ← copyBytes ram n (p + 1)
        pure (gotNull, c :: out)

/-- The loop of `copyinstr`, which takes one from `max` at least in each round. -/
def copyinstrFrom (ram : Word → Option UInt8) (pagetable : ℕ) : ℕ → Word → ℕ → PtM (Bool × List UInt8)
  | 0, _, _ => pure (false, [])
  | fuel + 1, srcva, max => do
    if max = 0 then pure (false, [])
    else
      let va0 := PGROUNDDOWN srcva
      let pa0 ← walkaddr pagetable va0
      if pa0 = 0 then pure (false, [])
      else
        let n := min (4096 - (srcva - va0)).toNat max
        let (gotNull, out) ← copyBytes ram n (pa0 + (srcva - va0))
        if gotNull then pure (true, out)
        else
          let (ok, rest) ← copyinstrFrom ram pagetable fuel (va0 + 4096) (max - n)
          pure (ok, out ++ rest)

/-- Whether it returns 0, and what it stores at `dst`. -/
def copyinstr (ram : Word → Option UInt8) (pagetable : ℕ) (srcva : Word) (max : ℕ) : PtM (Bool × List UInt8) :=
  copyinstrFrom ram pagetable max srcva max

/-- The loop of `mappages`, with the rounds left. -/
def mapFrom (pagetable : ℕ) (perm : Word) : ℕ → Word → Word → PtM Bool
  | 0, _, _ => pure true
  | n + 1, a, pa => do
    match ← walk pagetable a true with
    | none => pure false
    | some loc =>
      let pte ← readPte loc
      if pte &&& PTE_V ≠ 0 then throw "mappages: remap"
      else
        setPte loc (PA2PTE pa ||| perm ||| PTE_V)
        mapFrom pagetable perm n (a + 4096) (pa + 4096)

def mappages (pagetable : ℕ) (va size pa perm : Word) : PtM Bool := do
  if va % 4096 ≠ 0 then throw "mappages: va not aligned"
  else if size % 4096 ≠ 0 then throw "mappages: size not aligned"
  else if size = 0 then throw "mappages: size"
  else mapFrom pagetable perm (size.toNat / PGSIZE) va pa

/-- One round of the loop of `uvmunmap`. -/
def unmapPage (K : Kernel) (pagetable : ℕ) (a : Word) (doFree : Bool) : PtM Unit := do
  match ← walk pagetable a false with
  | none => pure ()
  | some loc =>
    let pte ← readPte loc
    if pte &&& PTE_V ≠ 0 then
      if doFree then kfree K (PTE2PA pte).toNat
      setPte loc 0

/-- For a range that does not go around the end of the address space. -/
def uvmunmap (K : Kernel) (pagetable : ℕ) (va : Word) (npages : ℕ) (doFree : Bool) : PtM Unit := do
  if va % 4096 ≠ 0 then throw "uvmunmap: not aligned"
  else repeatFrom (fun k => unmapPage K pagetable (va + BitVec.ofNat 64 (k * PGSIZE)) doFree) npages 0

end Xv6.Pagetable
