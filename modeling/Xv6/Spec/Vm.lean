import Xv6.Lib.Wp

/-! `kalloc.c` and the page tables of `vm.c`. Physical memory is a list of free pages and, for every
page, what it holds when it is read as a page-table page and as bytes; only whole pages are ever given from one use
to the other, so that writing an entry and writing bytes are kept apart. -/

namespace Xv6.Vm

open Wp

def PGSIZE : ℕ := 4096
def KERNBASE : ℕ := 0x80000000
def PHYSTOP : ℕ := KERNBASE + 128 * 1024 * 1024
def MAXVA : ℕ := 1 <<< (9 + 9 + 9 + 12 - 1)
def TRAMPOLINE : ℕ := MAXVA - PGSIZE
def TRAPFRAME : ℕ := TRAMPOLINE - PGSIZE

/-- `PGROUNDUP` and `PGROUNDDOWN`, in 64 bits. -/
def pgRoundUp (sz : ℕ) : ℕ := (sz + PGSIZE - 1) % 2 ^ 64 / PGSIZE * PGSIZE
def pgRoundDown (a : ℕ) : ℕ := a / PGSIZE * PGSIZE

/-- The permission bits of a page-table entry. -/
structure Perm where
  r : Bool
  w : Bool
  x : Bool
  u : Bool
  deriving DecidableEq

/-- A page-table entry: `PTE_V`, the permissions and the physical address. -/
structure Pte where
  v : Bool
  perm : Perm
  pa : ℕ
  deriving DecidableEq

/-- `(pte & (PTE_R|PTE_W|PTE_X)) != 0` -/
def Perm.leaf (f : Perm) : Bool := f.r || f.w || f.x

def Perm.none : Perm := ⟨false, false, false, false⟩

/-- The 64-bit word `n` as a page-table entry. -/
def pteOf (n : ℕ) : Pte :=
  ⟨n.testBit 0, ⟨n.testBit 1, n.testBit 2, n.testBit 3, n.testBit 4⟩, (n >>> 10) <<< 12 % 2 ^ 64⟩

/-- A page filled with the byte `b`. -/
def filled (b : ℕ) : Fin 512 → Pte := fun _ => pteOf (0x0101010101010101 * b)

structure Mem where
  freelist : List ℕ
  mem : ℕ → Fin 512 → Pte
  data : ℕ → ℕ → UInt8

/-- Where the linker has put the kernel: its end, and the trampoline page in its text. -/
structure Kernel where
  kend : ℕ
  trampoline : ℕ
  trampoline_lt : trampoline < kend

abbrev VmM := StateT Mem (Except String)

/-- Fill a whole page with the byte `b`. -/
def memset (pa b : ℕ) : VmM Unit := modify fun s =>
  { s with
    mem := Function.update s.mem pa (filled b)
    data := Function.update s.data pa fun _ => UInt8.ofNat b }

/-- Page contents with `bytes` at offset `off`. -/
def splice (page : ℕ → UInt8) (off : ℕ) (bytes : List UInt8) : ℕ → UInt8 :=
  fun o => if o < off then page o else (bytes[o - off]?).getD (page o)

/-- Copy bytes to offset `off` of a page. -/
def memmove (pa off : ℕ) (bytes : List UInt8) : VmM Unit :=
  modify fun s => { s with data := Function.update s.data pa (splice (s.data pa) off bytes) }

/-- The `n` bytes at offset `off` of a page. -/
def readBytes (pa off n : ℕ) : VmM (List UInt8) := do
  let s ← get
  pure ((List.range n).map fun t => s.data pa (off + t))

def readPte (pte : ℕ × Fin 512) : VmM Pte := do
  let s ← get
  pure (s.mem pte.1 pte.2)

def setPte (pte : ℕ × Fin 512) (v : Pte) : VmM Unit :=
  modify fun s => { s with mem := Function.update s.mem pte.1 (Function.update (s.mem pte.1) pte.2 v) }

section Kalloc

variable (K : Kernel)

def kfree (pa : ℕ) : VmM Unit := do
  if pa % PGSIZE ≠ 0 ∨ pa < K.kend ∨ PHYSTOP ≤ pa then throw "kfree"
  else
    memset pa 1
    modify fun s => { s with freelist := pa :: s.freelist }

def kalloc : VmM (Option ℕ) := do
  let s ← get
  match s.freelist with
  | [] => pure none
  | pa :: rest =>
    set { s with freelist := rest }
    memset pa 5
    pure (some pa)

end Kalloc

section PageTables

variable (K : Kernel)

instance neZero_entries : NeZero 512 := ⟨by decide⟩

/-- `PX(level, va)` -/
def px (level va : ℕ) : Fin 512 := Fin.ofNat 512 (va >>> (12 + 9 * level))

/-- One round of the loop of `walk`. -/
def walkLevel (pagetable : ℕ) (i : Fin 512) (alloc : Bool) : VmM (Option ℕ) := do
  let pte ← readPte (pagetable, i)
  if pte.v then pure (some pte.pa)
  else if !alloc then pure none
  else
    match ← kalloc with
    | none => pure none
    | some page =>
      memset page 0
      setPte (pagetable, i) ⟨true, .none, page⟩
      pure (some page)

/-- The page and the index of the entry for `va`. -/
def walk (pagetable va : ℕ) (alloc : Bool) : VmM (Option (ℕ × Fin 512)) := do
  if MAXVA ≤ va then throw "walk"
  else
    match ← walkLevel pagetable (px 2 va) alloc with
    | none => pure none
    | some pagetable =>
      match ← walkLevel pagetable (px 1 va) alloc with
      | none => pure none
      | some pagetable => pure (some (pagetable, px 0 va))

def walkaddr (pagetable va : ℕ) : VmM (Option ℕ) := do
  if MAXVA ≤ va then pure none
  else
    match ← walk pagetable va false with
    | none => pure none
    | some loc =>
      let pte ← readPte loc
      if pte.v && pte.perm.u then pure (some pte.pa) else pure none

/-- The loop of `mappages`. -/
def mapFrom (pagetable : ℕ) (perm : Perm) : ℕ → ℕ → ℕ → VmM Bool
  | 0, _, _ => pure true
  | n + 1, a, pa => do
    match ← walk pagetable a true with
    | none => pure false
    | some loc =>
      let pte ← readPte loc
      if pte.v then throw "mappages: remap"
      else
        setPte loc ⟨true, perm, pa⟩
        mapFrom pagetable perm n (a + PGSIZE) (pa + PGSIZE)

def mappages (pagetable va size pa : ℕ) (perm : Perm) : VmM Bool := do
  if va % PGSIZE ≠ 0 then throw "mappages: va not aligned"
  else if size % PGSIZE ≠ 0 then throw "mappages: size not aligned"
  else if size = 0 then throw "mappages: size"
  else mapFrom pagetable perm (size / PGSIZE) va pa

def uvmcreate : VmM (Option ℕ) := do
  match ← kalloc with
  | none => pure none
  | some pagetable =>
    memset pagetable 0
    pure (some pagetable)

/-- One round of the loop of `uvmunmap`. -/
def unmapPage (pagetable a : ℕ) (doFree : Bool) : VmM Unit := do
  match ← walk pagetable a false with
  | none => pure ()
  | some loc =>
    let pte ← readPte loc
    if pte.v then
      if doFree then kfree K pte.pa
      setPte loc (pteOf 0)

def uvmunmap (pagetable va npages : ℕ) (doFree : Bool) : VmM Unit := do
  if va % PGSIZE ≠ 0 then throw "uvmunmap: not aligned"
  else repeatFrom (fun k => unmapPage K pagetable (va + k * PGSIZE) doFree) npages 0

def uvmdealloc (pagetable oldsz newsz : ℕ) : VmM ℕ := do
  if oldsz ≤ newsz then pure oldsz
  else
    if pgRoundUp newsz < pgRoundUp oldsz then
      uvmunmap K pagetable (pgRoundUp newsz) ((pgRoundUp oldsz - pgRoundUp newsz) / PGSIZE) true
    pure newsz

/-- The loop of `uvmalloc`, with the rounds left. -/
def allocFrom (pagetable oldsz newsz : ℕ) (perm : Perm) : ℕ → ℕ → VmM ℕ
  | 0, _ => pure newsz
  | n + 1, a => do
    match ← kalloc with
    | none =>
      discard (uvmdealloc K pagetable a oldsz)
      pure 0
    | some mem =>
      memset mem 0
      if ← mappages pagetable a PGSIZE mem perm then allocFrom pagetable oldsz newsz perm n (a + PGSIZE)
      else
        kfree K mem
        discard (uvmdealloc K pagetable a oldsz)
        pure 0

/-- `xperm` are `PTE_W` and `PTE_X`. -/
def uvmalloc (pagetable oldsz newsz : ℕ) (xperm : Bool × Bool) : VmM ℕ := do
  if newsz < oldsz then pure oldsz
  else
    let oldsz := pgRoundUp oldsz
    allocFrom K pagetable oldsz newsz ⟨true, xperm.1, xperm.2, true⟩ ((newsz - oldsz + PGSIZE - 1) / PGSIZE) oldsz

/-- The recursion of `freewalk`, which goes down three levels. -/
def freewalk : ℕ → ℕ → VmM Unit
  | 0, _ => throw "freewalk: depth"
  | levels + 1, pagetable => do
    repeatFrom (fun i => do
      let loc := (pagetable, Fin.ofNat 512 i)
      let pte ← readPte loc
      if pte.v && !pte.perm.leaf then
        freewalk levels pte.pa
        setPte loc (pteOf 0)
      else if pte.v then throw "freewalk: leaf") 512 0
    kfree K pagetable

def uvmfree (pagetable sz : ℕ) : VmM Unit := do
  if 0 < sz then uvmunmap K pagetable 0 (pgRoundUp sz / PGSIZE) true
  freewalk K 3 pagetable

/-- The loop of `uvmcopy`, with the rounds left. -/
def copyFrom (old new : ℕ) : ℕ → ℕ → VmM Bool
  | 0, _ => pure true
  | n + 1, i => do
    match ← walk old i false with
    | none => copyFrom old new n (i + PGSIZE)
    | some loc =>
      let pte ← readPte loc
      if !pte.v then copyFrom old new n (i + PGSIZE)
      else
        match ← kalloc with
        | none =>
          uvmunmap K new 0 (i / PGSIZE) true
          pure false
        | some mem =>
          memmove mem 0 (← readBytes pte.pa 0 PGSIZE)
          if ← mappages new i PGSIZE mem pte.perm then copyFrom old new n (i + PGSIZE)
          else
            kfree K mem
            uvmunmap K new 0 (i / PGSIZE) true
            pure false

def uvmcopy (old new sz : ℕ) : VmM Bool := copyFrom K old new ((sz + PGSIZE - 1) / PGSIZE) 0

def uvmclear (pagetable va : ℕ) : VmM Unit := do
  match ← walk pagetable va false with
  | none => throw "uvmclear"
  | some loc =>
    let pte ← readPte loc
    setPte loc { pte with perm := { pte.perm with u := false } }

def ismapped (pagetable va : ℕ) : VmM Bool := do
  match ← walk pagetable va false with
  | none => pure false
  | some loc =>
    let pte ← readPte loc
    pure pte.v

/-- `vmfault` of a process with page table `ppagetable` and size `psz`. -/
def vmfault (ppagetable psz : ℕ) (pagetable va : ℕ) : VmM (Option ℕ) := do
  if psz ≤ va then pure none
  else
    let va := pgRoundDown va
    if ← ismapped pagetable va then pure none
    else
      match ← kalloc with
      | none => pure none
      | some mem =>
        memset mem 0
        if ← mappages ppagetable va PGSIZE mem ⟨true, true, false, true⟩ then pure (some mem)
        else
          kfree K mem
          pure none

/-- One round of the loops of `copyout` and `copyin`: the page for `va0`, faulted in if need be. -/
def userPage (ppagetable psz : ℕ) (pagetable va0 : ℕ) : VmM (Option ℕ) := do
  match ← walkaddr pagetable va0 with
  | some pa => pure (some pa)
  | none => vmfault K ppagetable psz pagetable va0

/-- The loop of `copyout`; each round copies at least one byte. -/
def copyoutFrom (ppagetable psz : ℕ) (pagetable : ℕ) : ℕ → ℕ → List UInt8 → VmM Bool
  | 0, _, _ => pure true
  | fuel + 1, dstva, src => do
    if src = [] then pure true
    else
      let va0 := pgRoundDown dstva
      if MAXVA ≤ va0 then pure false
      else
        match ← userPage K ppagetable psz pagetable va0 with
        | none => pure false
        | some pa0 =>
          match ← walk pagetable va0 false with
          | none => throw "null pointer"
          | some loc =>
            let pte ← readPte loc
            if !pte.perm.w then pure false
            else
              let n := PGSIZE - (dstva - va0)
              memmove pa0 (dstva - va0) (src.take n)
              copyoutFrom ppagetable psz pagetable fuel (va0 + PGSIZE) (src.drop n)

def copyout (ppagetable psz : ℕ) (pagetable dstva : ℕ) (src : List UInt8) : VmM Bool :=
  copyoutFrom K ppagetable psz pagetable src.length dstva src

/-- The loop of `copyin`: the bytes, if they are all there. -/
def copyinFrom (ppagetable psz : ℕ) (pagetable : ℕ) : ℕ → ℕ → ℕ → VmM (Option (List UInt8))
  | 0, _, _ => pure (some [])
  | fuel + 1, srcva, len => do
    if len = 0 then pure (some [])
    else
      let va0 := pgRoundDown srcva
      match ← userPage K ppagetable psz pagetable va0 with
      | none => pure none
      | some pa0 =>
        let n := min (PGSIZE - (srcva - va0)) len
        let bytes ← readBytes pa0 (srcva - va0) n
        let rest ← copyinFrom ppagetable psz pagetable fuel ((va0 + PGSIZE) % 2 ^ 64) (len - n)
        pure (rest.map (bytes ++ ·))

def copyin (ppagetable psz : ℕ) (pagetable srcva len : ℕ) : VmM (Option (List UInt8)) :=
  copyinFrom K ppagetable psz pagetable len srcva len

/-- The inner loop of `copyinstr`, over the bytes of a page: what it stores, and `got_null`. -/
def copyUntilNull : List UInt8 → List UInt8 × Bool
  | [] => ([], false)
  | c :: bytes =>
    if c = 0 then ([0], true)
    else
      let (out, gotNull) := copyUntilNull bytes
      (c :: out, gotNull)

/-- The loop of `copyinstr`: whether it returns 0, and what it stores. -/
def copyinstrFrom (pagetable : ℕ) : ℕ → ℕ → ℕ → VmM (Bool × List UInt8)
  | 0, _, _ => pure (false, [])
  | fuel + 1, srcva, max => do
    if max = 0 then pure (false, [])
    else
      let va0 := pgRoundDown srcva
      match ← walkaddr pagetable va0 with
      | none => pure (false, [])
      | some pa0 =>
        let n := min (PGSIZE - (srcva - va0)) max
        let (out, gotNull) := copyUntilNull (← readBytes pa0 (srcva - va0) n)
        if gotNull then pure (true, out)
        else
          let (ok, rest) ← copyinstrFrom pagetable fuel ((va0 + PGSIZE) % 2 ^ 64) (max - n)
          pure (ok, out ++ rest)

def copyinstr (pagetable srcva max : ℕ) : VmM (Bool × List UInt8) := copyinstrFrom pagetable max srcva max

end PageTables

end Xv6.Vm
