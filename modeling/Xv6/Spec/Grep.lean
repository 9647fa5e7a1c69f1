import Xv6.Spec.Ulib

/-! `user/grep.c`. For the matcher, a string stands without its NUL, and a pointer into it is an index; the recursion and the
loops have a bound on their depth. -/

namespace Xv6.Grep

open Ulib (Stop load store strchr cstring memmove)

/-- `s[i]` -/
def deref (s : List UInt8) (i : ℕ) : Except Stop UInt8 :=
  match (s ++ [0])[i]? with
  | some c => .ok c
  | none => .error .outside

section Match

variable (re text : List UInt8)

mutual

def matchhere : ℕ → ℕ → ℕ → Except Stop Bool
  | 0, _, _ => .error .hang
  | n + 1, i, j => do
    let r0 ← deref re i
    if r0 = 0 then return true
    else
      let r1 ← deref re (i + 1)
      if r1 = 42 then matchstar n r0 (i + 2) j -- *
      else if r0 = 36 ∧ r1 = 0 then return (← deref text j) = 0 -- $
      else
        let t ← deref text j
        if t ≠ 0 ∧ (r0 = 46 ∨ r0 = t) then matchhere n (i + 1) (j + 1) -- .
        else return false

def matchstar : ℕ → UInt8 → ℕ → ℕ → Except Stop Bool
  | 0, _, _, _ => .error .hang
  | n + 1, c, i, j => do
    if ← matchhere n i j then return true
    else
      let t ← deref text j
      if t ≠ 0 ∧ (t = c ∨ c = 46) then matchstar n c i (j + 1) else return false

end

/-- The loop of `match`. -/
def matchFrom : ℕ → ℕ → Except Stop Bool
  | 0, _ => .error .hang
  | n + 1, j => do
    if ← matchhere re text n 0 j then return true
    else if (← deref text j) ≠ 0 then matchFrom n (j + 1)
    else return false

/-- `match`, with depth `n`. -/
def matchText (n : ℕ) : Except Stop Bool := do
  if (← deref re 0) = 94 then matchhere re text n 1 0 -- ^
  else matchFrom re text n 0

end Match

/-- `match(re, p)` for the string at `p`, with depth enough for it. -/
def matchAt (re s : List UInt8) : Except Stop Bool := do
  let text ← cstring s
  matchText re text (2 * re.length + text.length + 2)

section Grep

/-- The bytes `read` leaves from address `i` on. -/
def fill : ℕ → List UInt8 → List UInt8 → Except Stop (List UInt8)
  | _, [], buf => return buf
  | i, c :: piece, buf => do fill (i + 1) piece (← store buf i c)

variable (re : List UInt8)

/-- The inner loop, from `p` on: the lines in the buffer. The bytes of each `write` go to `out`. -/
def lines : ℕ → List UInt8 → ℕ → List UInt8 → Except Stop (List UInt8 × ℕ × List UInt8)
  | 0, _, _, _ => .error .hang
  | n + 1, buf, p, out => do
    match ← strchr 10 (buf.drop p) with
    | none => return (buf, p, out)
    | some d =>
      let q := p + d
      let buf ← store buf q 0
      if ← matchAt re (buf.drop p) then
        let buf ← store buf q 10
        lines n buf (q + 1) (out ++ (buf.drop p).take (q + 1 - p))
      else lines n buf (q + 1) out

/-- `sizeof(buf)-m-1`, as the `int` that `read` takes. -/
def request (m : ℕ) : ℕ := (2 ^ 64 + 1024 - m - 1) % 2 ^ 32

/-- How many bytes a `read` returns: of what it may, `want`, but not none. -/
def pieceLength (want req rest : ℕ) : ℕ := min (max 1 want) (min req rest)

/-- The outer loop, from the `k`-th `read` on; `cut` says how the input arrives. -/
def grepFrom (cut : ℕ → ℕ) : ℕ → ℕ → List UInt8 → List UInt8 → ℕ → List UInt8 → Except Stop (List UInt8)
  | 0, _, _, _, _, _ => .error .hang
  | n + 1, k, input, buf, m, out => do
    let l := pieceLength (cut k) (request m) input.length
    if l = 0 then return out
    else
      let buf ← fill m (input.take l) buf
      let m := m + l
      let buf ← store buf m 0
      let (buf, p, out) ← lines re n buf 0 out
      if m > 0 then
        let m := m - p
        let buf ← memmove 0 p m buf
        grepFrom cut n (k + 1) (input.drop l) buf m out
      else grepFrom cut n (k + 1) (input.drop l) buf m out

/-- What `grep(re, fd)` writes. -/
def grep (cut : ℕ → ℕ) (n : ℕ) (input buf : List UInt8) : Except Stop (List UInt8) := grepFrom re cut n 0 input buf 0 []

end Grep

end Xv6.Grep
