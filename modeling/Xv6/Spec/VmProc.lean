import Xv6.Lib.Machine
import Xv6.Spec.Param
import Xv6.Spec.Vm

/-! The memory of processes: what `proc.c`, `exec.c`, `sysproc.c` and `trap.c` do with pages and page
tables. An operation of a process is one step; the pages of other users of the allocator (pipes,
drivers) are taken and given back by steps of their own. -/

namespace Xv6.Vm

open Wp Machine

abbrev Slot := Fin NPROC

def initproc : Slot := 0

def USERSTACK : ℕ := 2
def MAXARG : ℕ := 32

def SBRK_EAGER : ℤ := 1

inductive PState where
  | unused
  | used
  | live
  | zombie
  deriving DecidableEq

/-- Of `struct proc`, what memory hangs from. -/
structure Proc where
  state : PState
  parent : Option Slot
  pagetable : Option ℕ
  sz : ℕ
  trapframe : Option ℕ
  xstate : BitVec 32

structure St where
  m : Mem
  proc : Slot → Proc
  /-- The pages that other users of `kalloc` hold. -/
  others : List ℕ

abbrev M := StateT St (Except String)

def vm {α : Type} (f : VmM α) : M α := fun s => (f s.m).map fun (a, m) => (a, { s with m := m })

def getProc (p : Slot) : M Proc := do
  let s ← get
  pure (s.proc p)

def modifyProc (p : Slot) (f : Proc → Proc) : M Unit :=
  modify fun s => { s with proc := Function.update s.proc p (f (s.proc p)) }

section Procs

variable (K : Kernel)

def procPagetable (trapframe : ℕ) : VmM (Option ℕ) := do
  match ← uvmcreate with
  | none => pure none
  | some pagetable =>
    if ← mappages pagetable TRAMPOLINE PGSIZE K.trampoline ⟨true, false, true, false⟩ then
      if ← mappages pagetable TRAPFRAME PGSIZE trapframe ⟨true, true, false, false⟩ then pure (some pagetable)
      else
        uvmunmap K pagetable TRAMPOLINE 1 false
        uvmfree K pagetable 0
        pure none
    else
      uvmfree K pagetable 0
      pure none

def procFreepagetable (pagetable sz : ℕ) : VmM Unit := do
  uvmunmap K pagetable TRAMPOLINE 1 false
  uvmunmap K pagetable TRAPFRAME 1 false
  uvmfree K pagetable sz

def freeproc (p : Slot) : M Unit := do
  let e ← getProc p
  if let some pa := e.trapframe then vm (kfree K pa)
  modifyProc p fun e => { e with trapframe := none }
  if let some pagetable := e.pagetable then vm (procFreepagetable K pagetable e.sz)
  modifyProc p fun _ => ⟨.unused, none, none, 0, none, 0⟩

def allocproc : M (Option Slot) := do
  let s ← get
  match (List.finRange NPROC).find? fun p => (s.proc p).state = .unused with
  | none => pure none
  | some p =>
    modifyProc p fun e => { e with state := .used }
    match ← vm kalloc with
    | none =>
      modifyProc p fun e => { e with trapframe := none }
      freeproc K p
      pure none
    | some pa =>
      modifyProc p fun e => { e with trapframe := some pa }
      match ← vm (procPagetable K pa) with
      | none =>
        modifyProc p fun e => { e with pagetable := none }
        freeproc K p
        pure none
      | some pagetable =>
        modifyProc p fun e => { e with pagetable := some pagetable }
        pure (some p)

/-- A process that runs has a page table and a trapframe; the C code follows the pointers. -/
def pagetableOf (p : Slot) : M ℕ := do
  match (← getProc p).pagetable with
  | some pagetable => pure pagetable
  | none => throw "null pointer"

def trapframeOf (p : Slot) : M ℕ := do
  match (← getProc p).trapframe with
  | some pa => pure pa
  | none => throw "null pointer"

def userinit : M Unit := do
  match ← allocproc K with
  | none => throw "null pointer"
  | some p => modifyProc p fun e => { e with state := .live }

/-- `sz + n`, in 64 bits. -/
def addSz (sz : ℕ) (n : ℤ) : ℕ := ((sz + n) % 2 ^ 64).toNat

def growproc (p : Slot) (n : ℤ) : M Bool := do
  let sz := (← getProc p).sz
  let pagetable ← pagetableOf p
  if 0 < n then
    let sz ← vm (uvmalloc K pagetable sz (addSz sz n) (true, false))
    if sz = 0 then pure false
    else
      modifyProc p fun e => { e with sz := sz }
      pure true
  else if n < 0 then
    let sz ← vm (uvmdealloc K pagetable sz (addSz sz n))
    modifyProc p fun e => { e with sz := sz }
    pure true
  else
    modifyProc p fun e => { e with sz := sz }
    pure true

def sysSbrk (p : Slot) (n t : ℤ) : M (Option ℕ) := do
  let addr := (← getProc p).sz
  if t = SBRK_EAGER ∨ n < 0 then
    if ← growproc K p n then pure (some addr) else pure none
  else if addSz addr n < addr then pure none
  else
    modifyProc p fun e => { e with sz := addSz e.sz n }
    pure (some addr)

/-- `sizeof(struct trapframe)`, and the offsets in it of what the kernel sets. -/
def TRAPFRAME_SIZE : ℕ := 288
def EPC : ℕ := 24
def SP : ℕ := 48
def A0 : ℕ := 112
def A1 : ℕ := 120

/-- A number in `n` bytes, the lowest first. -/
def leBytes (n x : ℕ) : List UInt8 := (List.range n).map fun k => UInt8.ofNat (x >>> (8 * k))

def kfork (p : Slot) : M (Option Slot) := do
  match ← allocproc K with
  | none => pure none
  | some np =>
    let sz := (← getProc p).sz
    let old ← pagetableOf p
    let new ← pagetableOf np
    if ← vm (uvmcopy K old new sz) then
      modifyProc np fun e => { e with sz := sz }
      -- copy saved user registers
      let tf ← trapframeOf np
      let regs ← vm (readBytes (← trapframeOf p) 0 TRAPFRAME_SIZE)
      vm (memmove tf 0 regs)
      vm (memmove tf A0 (leBytes 8 0))
      modifyProc np fun e => { e with parent := some p }
      modifyProc np fun e => { e with state := .live }
      pure (some np)
    else
      freeproc K np
      pure none

def kexit (p : Slot) (status : BitVec 32) : M Unit := do
  if p = initproc then throw "init exiting"
  else
    -- reparent(p)
    modify fun s => { s with proc := fun q =>
      if (s.proc q).parent = some p then { s.proc q with parent := some initproc } else s.proc q }
    modifyProc p fun e => { e with xstate := status }
    modifyProc p fun e => { e with state := .zombie }

/-- `copyout` and `copyin` to the memory of the calling process. -/
def copyoutTo (p : Slot) (va : ℕ) (src : List UInt8) : M Bool := do
  let pagetable ← pagetableOf p
  vm (copyout K pagetable (← getProc p).sz pagetable va src)

def copyinFromUser (p : Slot) (va len : ℕ) : M (Option (List UInt8)) := do
  let pagetable ← pagetableOf p
  vm (copyin K pagetable (← getProc p).sz pagetable va len)

/-- `kwait` as far as the scan that finds a zombie, or none; a parent that has to sleep scans again. -/
def kwait (p : Slot) (addr : ℕ) : M (Option Slot) := do
  let s ← get
  match (List.finRange NPROC).find? fun q => (s.proc q).parent = some p ∧ (s.proc q).state = .zombie with
  | none => pure none
  | some q =>
    if addr ≠ 0 then
      if ← copyoutTo K p addr (leBytes 4 (s.proc q).xstate.toNat) then
        freeproc K q
        pure (some q)
      else pure none
    else
      freeproc K q
      pure (some q)

/-- A page fault of a process in user space, at `va`. -/
def pageFault (p : Slot) (va : ℕ) : M Bool := do
  let pagetable ← pagetableOf p
  let pa ← vm (vmfault K pagetable (← getProc p).sz pagetable va)
  pure pa.isSome

end Procs

/-- A program header, whether it can be read, what the file has from `off` on, and how many pages of that can be
read. -/
structure Segment where
  readable : Bool
  load : Bool
  flags : BitVec 32
  vaddr : BitVec 64
  filesz : BitVec 64
  memsz : BitVec 64
  bytes : ℕ → UInt8
  pages : ℕ

/-- What `kexec` finds at a path: an inode, a proper header, the program headers. -/
structure Image where
  found : Bool
  elf : Bool
  entry : BitVec 64
  segments : List Segment

section Exec

variable (K : Kernel)

/-- `PTE_W` and `PTE_X` -/
def flags2perm (flags : BitVec 32) : Bool × Bool := (flags.getLsbD 1, flags.getLsbD 0)

/-- The loop of `loadseg`, with the rounds left; `good` pages can be read. -/
def loadFrom (pagetable va : ℕ) (bytes : ℕ → UInt8) (good sz : ℕ) : ℕ → ℕ → VmM Bool
  | 0, _ => pure true
  | n + 1, i => do
    match ← walkaddr pagetable (va + i * PGSIZE) with
    | none => throw "loadseg: address should exist"
    | some pa =>
      if good ≤ i then pure false
      else
        memmove pa 0 ((List.range (min (sz - i * PGSIZE) PGSIZE)).map fun t => bytes (i * PGSIZE + t))
        loadFrom pagetable va bytes good sz n (i + 1)

def loadseg (pagetable va : ℕ) (bytes : ℕ → UInt8) (good : ℕ) (sz : ℕ) : VmM Bool :=
  loadFrom pagetable va bytes good sz ((sz + PGSIZE - 1) / PGSIZE) 0

/-- The loop over the program headers: whether it has got to its end, and the size so far. -/
def loadSegments (pagetable : ℕ) : List Segment → ℕ → VmM (Bool × ℕ)
  | [], sz => pure (true, sz)
  | ph :: phs, sz => do
    if !ph.readable then pure (false, sz)
    else if !ph.load then loadSegments pagetable phs sz
    else if ph.memsz < ph.filesz then pure (false, sz)
    else if ph.vaddr + ph.memsz < ph.vaddr then pure (false, sz)
    else if ph.vaddr.toNat % PGSIZE ≠ 0 then pure (false, sz)
    else
      let sz1 ← uvmalloc K pagetable sz (ph.vaddr + ph.memsz).toNat (flags2perm ph.flags)
      if sz1 = 0 then pure (false, sz)
      else if ← loadseg pagetable ph.vaddr.toNat ph.bytes ph.pages (ph.filesz.toNat % 2 ^ 32) then
        loadSegments pagetable phs sz1
      else pure (false, sz1)

/-- `sp -= n; sp -= sp % 16` -/
def pushSp (sp n : ℕ) : ℕ := (sp + 2 ^ 64 - n) % 2 ^ 64 / 16 * 16

/-- The loop that copies the arguments to the stack, with `ustack` so far: the stack pointer after it, and `ustack`. -/
def pushArgs (ppagetable psz pagetable stackbase : ℕ) : List (List UInt8) → List ℕ → ℕ → VmM (Option (ℕ × List ℕ))
  | [], ustack, sp => pure (some (sp, ustack))
  | arg :: argv, ustack, sp => do
    if MAXARG ≤ ustack.length then pure none
    else
      let sp := pushSp sp (arg.length + 1)
      if sp < stackbase then pure none
      else if ← copyout K ppagetable psz pagetable sp (arg ++ [0]) then
        pushArgs ppagetable psz pagetable stackbase argv (ustack ++ [sp]) sp
      else pure none

/-- The user stack with the arguments: the stack pointer, if there is one, and the new size, or what to free on
failure. -/
def buildStack (ppagetable psz pagetable sz : ℕ) (argv : List (List UInt8)) : VmM (Option ℕ × ℕ) := do
  let sz := pgRoundUp sz
  let sz1 ← uvmalloc K pagetable sz (sz + (USERSTACK + 1) * PGSIZE) (true, false)
  if sz1 = 0 then pure (none, sz)
  else
    uvmclear pagetable (sz1 - (USERSTACK + 1) * PGSIZE)
    let stackbase := sz1 - USERSTACK * PGSIZE
    match ← pushArgs K ppagetable psz pagetable stackbase argv [] sz1 with
    | none => pure (none, sz1)
    | some (sp, ustack) =>
      let sp := pushSp sp ((argv.length + 1) * 8)
      if sp < stackbase then pure (none, sz1)
      else if ← copyout K ppagetable psz pagetable sp ((ustack ++ [0]).flatMap (leBytes 8)) then pure (some sp, sz1)
      else pure (none, sz1)

/-- `argv` are the arguments, without their terminators. -/
def kexec (p : Slot) (img : Image) (argv : List (List UInt8)) : M Bool := do
  if !img.found || !img.elf then pure false
  else
    match ← vm (procPagetable K (← trapframeOf p)) with
    | none => pure false
    | some pagetable =>
      let oldpagetable ← pagetableOf p
      let oldsz := (← getProc p).sz
      let (ok, sz) ← vm (loadSegments K pagetable img.segments 0)
      if !ok then
        vm (procFreepagetable K pagetable sz)
        pure false
      else
        let (stack, sz) ← vm (buildStack K oldpagetable oldsz pagetable sz argv)
        match stack with
        | none =>
          vm (procFreepagetable K pagetable sz)
          pure false
        | some sp =>
          let tf ← trapframeOf p
          vm (memmove tf A1 (leBytes 8 sp))
          modifyProc p fun e => { e with pagetable := some pagetable }
          modifyProc p fun e => { e with sz := sz }
          vm (memmove tf EPC (leBytes 8 img.entry.toNat))
          vm (memmove tf SP (leBytes 8 sp))
          vm (procFreepagetable K oldpagetable oldsz)
          pure true

/-- The first process starts with `kexec("/init", { "/init", 0 })`. -/
def forkret (img : Image) : M Unit := do
  if ← kexec K initproc img [[0x2f, 0x69, 0x6e, 0x69, 0x74]] then pure () else throw "exec"

/-- `kfree(argv[i])` for all `i`. -/
def freeArgs : List ℕ → VmM Unit
  | [] => pure ()
  | pa :: pages => do
    kfree K pa
    freeArgs pages

/-- The loop that fetches the arguments: whether it has got to the null pointer, and the pages. An argument
is its string, or nothing if there is no such memory; it has to fit a page. -/
def fetchArgs (p : Slot) (uargv : ℕ) : List (Option (List UInt8)) → ℕ → List ℕ → M (Bool × List ℕ)
  | args, i, pages => do
    if MAXARG ≤ i then pure (false, pages)
    else
      let addr := (uargv + 8 * i) % 2 ^ 64
      let sz := (← getProc p).sz
      if sz ≤ addr ∨ sz < (addr + 8) % 2 ^ 64 then pure (false, pages)
      else if (← copyinFromUser K p addr 8).isSome then
        match args with
        | [] => pure (true, pages)
        | arg :: args =>
          match ← vm kalloc with
          | none => pure (false, pages)
          | some pa =>
            if arg.any (·.length < PGSIZE) then fetchArgs p uargv args (i + 1) (pages ++ [pa]) else pure (false, pages ++ [pa])
      else pure (false, pages)

def sysExec (p : Slot) (img : Image) (uargv : ℕ) (args : List (Option (List UInt8))) : M Bool := do
  let (ok, pages) ← fetchArgs K p uargv args 0 []
  if ok then
    let ret ← kexec K p img (args.filterMap id)
    vm (freeArgs K pages)
    pure ret
  else
    vm (freeArgs K pages)
    pure false

end Exec

/-- The operations. -/
inductive Act where
  | userinit
  | forkret (img : Image)
  | fork (p : Slot)
  | exec (p : Slot) (img : Image) (uargv : ℕ) (args : List (Option (List UInt8)))
  | sbrk (p : Slot) (n t : BitVec 32)
  | fault (p : Slot) (va : ℕ)
  | copyout (p : Slot) (va : ℕ) (src : List UInt8)
  | copyin (p : Slot) (va len : ℕ)
  | exit (p : Slot) (status : BitVec 32)
  | wait (p : Slot) (addr : ℕ)
  | kalloc
  | kfree (pa : ℕ)

section Steps

variable (K : Kernel)

/-- Another user of the allocator takes a page, or gives one back. -/
def otherAlloc : M Unit := do
  match ← vm kalloc with
  | none => pure ()
  | some pa => modify fun s => { s with others := pa :: s.others }

def otherFree (pa : ℕ) : M Unit := do
  vm (kfree K pa)
  modify fun s => { s with others := s.others.erase pa }

/-- Who acts: a process that is alive; at boot, nobody. -/
def Act.actor : Act → Option Slot
  | .fork p | .exec p .. | .sbrk p .. | .fault p _ | .copyout p .. | .copyin p .. | .exit p _ | .wait p _ => some p
  | .forkret _ => some initproc
  | .userinit | .kalloc | .kfree _ => none

def Act.run : Act → M Unit
  | .userinit => Vm.userinit K
  | .forkret img => Vm.forkret K img
  | .fork p => discard (kfork K p)
  | .exec p img uargv args => discard (sysExec K p img uargv args)
  | .sbrk p n t => discard (sysSbrk K p n.toInt t.toInt)
  | .fault p va => discard (pageFault K p va)
  | .copyout p va src => discard (copyoutTo K p va src)
  | .copyin p va len => discard (copyinFromUser K p va len)
  | .exit p status => kexit p status
  | .wait p addr => discard (kwait K p addr)
  | .kalloc => otherAlloc
  | .kfree pa => otherFree K pa

/-- When an operation can be started: by a process that is alive, `userinit` at boot, and `kfree` by who
holds the page. -/
def Act.enabled (s : St) (a : Act) : Prop :=
  match a with
  | .userinit => (s.proc initproc).state = .unused
  | .kfree pa => pa ∈ s.others
  | _ => ∀ p, a.actor = some p → (s.proc p).state = .live

instance (s : St) (a : Act) : Decidable (a.enabled s) := by
  unfold Act.enabled
  cases a <;> infer_instance

def step (a : Act) (s : St) : Outcome St :=
  if a.enabled s then
    match a.run K s with
    | .ok (_, s') => .ok s'
    | .error msg => .panic msg
  else .blocked

/-- The pages `kinit` has put on the free list and the kernel has not taken for itself, and those it has. -/
def boot (freelist others : List ℕ) : St := ⟨⟨freelist, fun _ => filled 1, fun _ _ => 1⟩, fun _ => ⟨.unused, none, none, 0, none, 0⟩, others⟩

end Steps

end Xv6.Vm
