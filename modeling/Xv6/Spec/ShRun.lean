import Xv6.Spec.ShGrammar

/-! `runcmd` of `user/sh.c`: which programs it starts, and with which descriptors. Files can be opened and processes forked. -/

namespace Xv6.Sh

/-- What a descriptor refers to. -/
inductive File where
  | path (name : List UInt8) (mode : ℕ)
  | pipe (id : ℕ) (writable : Bool)
  | device (major : ℕ)
  deriving DecidableEq

/-- `p->ofile` -/
abbrev Ofile := List (Option File)

/-- The lowest free descriptor. -/
def fdalloc (f : File) (t : Ofile) : Option (ℕ × Ofile) := do
  let fd ← t.findIdx? (·.isNone)
  return (fd, t.set fd (some f))

def close (fd : ℕ) (t : Ofile) : Ofile := t.set fd none

/-- `dup`, whose result is not looked at. -/
def dup (fd : ℕ) (t : Ofile) : Ofile :=
  match t.getD fd none with
  | none => t
  | some f => ((fdalloc f t).map Prod.snd).getD t

/-- `pipe(p)`: `p[0]`, `p[1]`. -/
def pipe (id : ℕ) (t : Ofile) : Option (ℕ × ℕ × Ofile) := do
  let (r, t) ← fdalloc (.pipe id false) t
  let (w, t) ← fdalloc (.pipe id true) t
  return (r, w, t)

/-- A program at its `exec`. -/
structure Started where
  argv : List (List UInt8)
  ofile : Ofile
  deriving DecidableEq

/-- The programs that a command starts. A forked child has its own copy of the descriptors; `n` tells the pipes apart. -/
def runcmd : ℕ → Cmd (List UInt8) → Ofile → List Started
  | _, .exec argv, t => if argv = [] then [] else [⟨argv, t⟩]
  | n, .redir cmd file mode fd, t =>
    match fdalloc (.path file mode) (close fd t) with
    | none => []
    | some (_, t) => runcmd n cmd t
  | n, .list left right, t => runcmd (2 * n + 1) left t ++ runcmd (2 * n + 2) right t
  | n, .pipe left right, t =>
    match pipe n t with
    | none => []
    | some (r, w, t) =>
      runcmd (2 * n + 1) left (close w (close r (dup w (close 1 t)))) ++
        runcmd (2 * n + 2) right (close w (close r (dup r (close 0 t))))
  | n, .back cmd, t => runcmd n cmd t

end Xv6.Sh
