import Xv6.Lib.Machine

/-! The input side of `console.c`: `consoleintr` edits and commits lines, `consoleread` takes them. Both run under
`cons.lock`, so what a reader does between two sleeps is one step. The process list of control-P is left out. -/

namespace Xv6.Console

open Machine

def INPUT_BUF_SIZE : ℕ := 128

/-- `C(x)`, control-x. -/
def ctrl (x : Char) : UInt8 := UInt8.ofNat (x.toNat - '@'.toNat)

abbrev newline : UInt8 := 10
abbrev carriageReturn : UInt8 := 13
abbrev delete : UInt8 := 0x7f

/-- `cons`, less the lock. -/
structure Cons where
  buf : ℕ → UInt8
  r : BitVec 32
  w : BitVec 32
  e : BitVec 32

/-- What `consputc` sends to the uart; `none` is `BACKSPACE`. -/
def consputc : Option UInt8 → List UInt8
  | none => [8, 32, 8]
  | some c => [c]

/-- The loop of control-U, `k` passes at most. -/
def killLine : ℕ → Cons → Cons × List UInt8
  | 0, s => (s, [])
  | k + 1, s =>
    if s.e ≠ s.w ∧ s.buf ((s.e - 1).toNat % INPUT_BUF_SIZE) ≠ newline then
      let (s', out) := killLine k { s with e := s.e - 1 }
      (s', consputc none ++ out)
    else (s, [])

/-- The default case of `consoleintr`. -/
def store (c : UInt8) (s : Cons) : Cons × List UInt8 :=
  if c ≠ 0 ∧ (s.e - s.r).toNat < INPUT_BUF_SIZE then
    let c := if c = carriageReturn then newline else c
    let s := { s with buf := Function.update s.buf (s.e.toNat % INPUT_BUF_SIZE) c, e := s.e + 1 }
    if c = newline ∨ c = ctrl 'D' ∨ (s.e - s.r).toNat = INPUT_BUF_SIZE then ({ s with w := s.e }, consputc (some c))
    else (s, consputc (some c))
  else (s, [])

def consoleintr (c : UInt8) (s : Cons) : Cons × List UInt8 :=
  if c = ctrl 'P' then (s, [])
  else if c = ctrl 'U' then killLine (s.e - s.w).toNat s
  else if c = ctrl 'H' ∨ c = delete then
    if s.e ≠ s.w then ({ s with e := s.e - 1 }, consputc none) else (s, [])
  else store c s

/-- A `consoleread` under way: its variables, and what it has copied out. `dst i` says whether byte `i` of the
destination can be written. -/
structure Reader where
  target : BitVec 32
  n : BitVec 32
  dst : ℕ → Bool
  got : List UInt8

def Reader.ret (rd : Reader) : ℤ := (rd.target - rd.n).toInt

/-- The loop of `consoleread` up to the next `sleep` or to the end, `k` passes at most: the value returned, if it is
the end. `killed` is what `killed(myproc())` says if the buffer is empty. -/
def readLoop (killed : Bool) : ℕ → Cons → Reader → Cons × Reader × Option ℤ
  | 0, s, rd => (s, rd, some rd.ret)
  | k + 1, s, rd =>
    if 0 < rd.n.toInt then
      if s.r = s.w then (s, rd, if killed then some (-1) else none)
      else
        let c := s.buf (s.r.toNat % INPUT_BUF_SIZE)
        let s := { s with r := s.r + 1 }
        if c = ctrl 'D' then
          -- save ^D for next time
          if rd.n.toNat < rd.target.toNat then ({ s with r := s.r - 1 }, rd, some rd.ret) else (s, rd, some rd.ret)
        else if rd.dst rd.got.length then
          let rd := { rd with n := rd.n - 1, got := rd.got ++ [c] }
          if c = newline then (s, rd, some rd.ret) else readLoop killed k s rd
        else (s, rd, some rd.ret)
    else (s, rd, some rd.ret)

/-- From `acquire`, or from the end of a `sleep`, on. -/
def consoleread (killed : Bool) (s : Cons) (rd : Reader) : Cons × Reader × Option ℤ := readLoop killed rd.n.toNat s rd

/-- The console and its readers: who is asleep in `consoleread`, what the calls have returned and copied out, and what
was sent to the uart. -/
structure Sys where
  cons : Cons
  reading : ℕ → Option Reader
  returned : List (ℕ × ℤ × List UInt8)
  echo : List UInt8

inductive Act where
  | intr (c : UInt8)
  | read (p : ℕ) (n : BitVec 32) (dst : ℕ → Bool) (killed : Bool)
  | resume (p : ℕ) (killed : Bool)

def Sys.run (σ : Sys) (p : ℕ) (killed : Bool) (rd : Reader) : Sys :=
  match consoleread killed σ.cons rd with
  | (s, rd, none) => { σ with cons := s, reading := Function.update σ.reading p (some rd) }
  | (s, rd, some ret) =>
    { σ with cons := s, reading := Function.update σ.reading p none, returned := σ.returned ++ [(p, ret, rd.got)] }

def step (a : Act) (σ : Sys) : Outcome Sys :=
  match a with
  | .intr c => .ok { σ with cons := (consoleintr c σ.cons).1, echo := σ.echo ++ (consoleintr c σ.cons).2 }
  | .read p n dst killed =>
    match σ.reading p with
    | none => .ok (σ.run p killed ⟨n, n, dst, []⟩)
    | some _ => .blocked
  | .resume p killed =>
    match σ.reading p with
    | none => .blocked
    | some rd => .ok (σ.run p killed rd)

def start : Sys := ⟨⟨fun _ => 0, 0, 0, 0⟩, fun _ => none, [], []⟩

/-! The line editor the console is to be: the characters being edited, and those committed. -/

namespace Editor

structure Reader where
  n : ℤ
  got : List UInt8

structure State where
  queue : List UInt8
  edit : List UInt8
  reading : ℕ → Option Reader
  returned : List (ℕ × ℤ × List UInt8)

/-- A character is typed. -/
def type (c : UInt8) (s : State) : State :=
  if c = 0 ∨ c = ctrl 'P' then s
  else if c = ctrl 'U' then { s with edit := [] }
  else if c = ctrl 'H' ∨ c = delete then { s with edit := s.edit.dropLast }
  else if INPUT_BUF_SIZE ≤ s.queue.length + s.edit.length then s
  else
    let edit := s.edit ++ [if c = carriageReturn then newline else c]
    if c = carriageReturn ∨ c = newline ∨ c = ctrl 'D' ∨ s.queue.length + edit.length = INPUT_BUF_SIZE then
      { s with queue := s.queue ++ edit, edit := [] }
    else { s with edit := edit }

/-- A read of at most `n` bytes that has `got` some takes more from the queue: the rest of the queue, what it has then,
and whether it is over. It ends after a newline; it ends at a control-D, which it takes away only if it has nothing. -/
def take (n : ℤ) : List UInt8 → List UInt8 → List UInt8 × List UInt8 × Bool
  | [], got => ([], got, decide (n ≤ got.length))
  | c :: q, got =>
    if n ≤ got.length then (c :: q, got, true)
    else if c = ctrl 'D' then if got = [] then (q, [], true) else (c :: q, got, true)
    else if c = newline then (q, got ++ [c], true)
    else take n q (got ++ [c])

def State.run (s : State) (p : ℕ) (killed : Bool) (rd : Reader) : State :=
  match take rd.n s.queue rd.got with
  | (q, got, true) =>
    { s with queue := q, reading := Function.update s.reading p none, returned := s.returned ++ [(p, (got.length : ℤ), got)] }
  | (q, got, false) =>
    if killed then { s with queue := q, reading := Function.update s.reading p none, returned := s.returned ++ [(p, -1, got)] }
    else { s with queue := q, reading := Function.update s.reading p (some { rd with got := got }) }

def step (a : Act) (s : State) : Outcome State :=
  match a with
  | .intr c => .ok (type c s)
  | .read p n _ killed =>
    match s.reading p with
    | none => .ok (s.run p killed ⟨n.toInt, []⟩)
    | some _ => .blocked
  | .resume p killed =>
    match s.reading p with
    | none => .blocked
    | some rd => .ok (s.run p killed rd)

def start : State := ⟨[], [], fun _ => none, []⟩

end Editor

end Xv6.Console
