import Xv6.Spec.Grep
import Xv6.Spec.Printf

/-! `user/wc.c`, and `atoi` of `user/ulib.c`. -/

namespace Xv6.Wc

open Ulib (Stop load strchr)
open Printf (User.vprintf)

/-- `" \r\t\n\v"` -/
def separators : List UInt8 := [32, 13, 9, 10, 11, 0]

/-- `l`, `w`, `c` and `inword` -/
structure Counts where
  l : BitVec 32
  w : BitVec 32
  c : BitVec 32
  inword : Bool
  deriving DecidableEq

/-- The body of the loop over a buffer. -/
def count (s : Counts) (b : UInt8) : Except Stop Counts := do
  let s := { s with c := s.c + 1 }
  let s := if b = 10 then { s with l := s.l + 1 } else s
  match ← strchr b separators with
  | some _ => return { s with inword := false }
  | none => if s.inword then return s else return { s with w := s.w + 1, inword := true }

/-- The loop, from the `k`-th `read` on. A `read` fails where `cut` is none, and otherwise returns what `cut` says of
the bytes that are left; the flag tells that it has failed. -/
def wcFrom (cut : ℕ → Option ℕ) : ℕ → ℕ → List UInt8 → Counts → Except Stop (Counts × Bool)
  | 0, _, _, _ => .error .hang
  | n + 1, k, input, s =>
    match cut k with
    | none => return (s, true)
    | some want => do
      let l := Grep.pieceLength want 512 input.length
      if l = 0 then return (s, false)
      else
        let s ← (input.take l).foldlM count s
        wcFrom cut n (k + 1) (input.drop l) s

/-- `"wc: read error\n"` -/
def readError : List UInt8 := [119, 99, 58, 32, 114, 101, 97, 100, 32, 101, 114, 114, 111, 114, 10]

/-- `"%d %d %d %s\n"` -/
def format : List UInt8 := [37, 100, 32, 37, 100, 32, 37, 100, 32, 37, 115, 10]

/-- What `wc(fd, name)` prints. -/
def wc (cut : ℕ → Option ℕ) (n : ℕ) (input name : List UInt8) : Except Stop (List UInt8) := do
  let (s, failed) ← wcFrom cut n 0 input ⟨0, 0, 0, false⟩
  if failed then User.vprintf readError []
  else User.vprintf format [.word (s.l.signExtend 64), .word (s.w.signExtend 64), .word (s.c.signExtend 64), .str (some name)]

/-- The loop of `atoi`, from a pointer to the memory after it. -/
def atoiFrom : List UInt8 → BitVec 32 → Except Stop (BitVec 32)
  | [], _ => .error .outside
  | b :: s, n => if 48 ≤ b ∧ b ≤ 57 then atoiFrom s (n * 10 + b.toBitVec.setWidth 32 - 48) else return n

def atoi (s : List UInt8) : Except Stop (BitVec 32) := atoiFrom s 0

end Xv6.Wc
