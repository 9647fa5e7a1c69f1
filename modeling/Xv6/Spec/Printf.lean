import Xv6.Spec.Ulib

/-! `user/printf.c` and the formatting of `kernel/printf.c`. What is printed is a list of bytes; the two differ in the digits,
in the width of the number that is taken apart, and in how the format is walked. -/

namespace Xv6.Printf

open Ulib (Stop)

/-- An argument: a register, or a `char *` that may be null. -/
inductive Arg where
  | word (w : BitVec 64)
  | str (s : Option (List UInt8))
  deriving DecidableEq

def vaWord : List Arg → Except Stop (BitVec 64 × List Arg)
  | .word w :: args => return (w, args)
  | _ => .error .outside

def vaStr : List Arg → Except Stop (Option (List UInt8) × List Arg)
  | .str s :: args => return (s, args)
  | _ => .error .outside

section Numbers

variable (digits : List UInt8)

/-- The loop that fills `buf`, last byte first, with `room` bytes left. -/
def digitsFrom (base : ℕ) : ℕ → ℕ → List UInt8 → Except Stop (ℕ × List UInt8)
  | 0, _, _ => .error .outside
  | room + 1, x, buf =>
    let buf := digits.getD (x % base) 0 :: buf
    if x / base ≠ 0 then digitsFrom base room (x / base) buf else return (room, buf)

/-- `printint` with a `buf[20]` and an `x` of `width` bits. -/
def printintWide (width : ℕ) (xx : BitVec 64) (base : ℕ) (sgn : Bool) : Except Stop (List UInt8) := do
  let neg := sgn && xx.msb -- xx < 0
  let x := (if neg then -xx else xx).toNat % 2 ^ width
  let (room, buf) ← digitsFrom digits base 20 x []
  if neg then
    if room = 0 then .error .outside else return 45 :: buf
  else return buf

def printptr (x : BitVec 64) : List UInt8 :=
  48 :: 120 :: (List.range 16).map fun i => digits.getD ((x <<< (4 * i)) >>> 60).toNat 0

variable (printint : BitVec 64 → ℕ → Bool → Except Stop (List UInt8))

/-- One conversion: what is printed, the arguments left, and by how much `i` moves on. -/
def conversion (c0 c1 c2 : UInt8) (args : List Arg) : Except Stop (List UInt8 × List Arg × ℕ) :=
  if c0 = 100 then do -- d
    let (w, args) ← vaWord args
    return (← printint ((w.setWidth 32).signExtend 64) 10 true, args, 0)
  else if c0 = 108 ∧ c1 = 100 then do -- ld
    let (w, args) ← vaWord args
    return (← printint w 10 true, args, 1)
  else if c0 = 108 ∧ c1 = 108 ∧ c2 = 100 then do -- lld
    let (w, args) ← vaWord args
    return (← printint w 10 true, args, 2)
  else if c0 = 117 then do -- u
    let (w, args) ← vaWord args
    return (← printint ((w.setWidth 32).setWidth 64) 10 false, args, 0)
  else if c0 = 108 ∧ c1 = 117 then do -- lu
    let (w, args) ← vaWord args
    return (← printint w 10 false, args, 1)
  else if c0 = 108 ∧ c1 = 108 ∧ c2 = 117 then do -- llu
    let (w, args) ← vaWord args
    return (← printint w 10 false, args, 2)
  else if c0 = 120 then do -- x
    let (w, args) ← vaWord args
    return (← printint ((w.setWidth 32).setWidth 64) 16 false, args, 0)
  else if c0 = 108 ∧ c1 = 120 then do -- lx
    let (w, args) ← vaWord args
    return (← printint w 16 false, args, 1)
  else if c0 = 108 ∧ c1 = 108 ∧ c2 = 120 then do -- llx
    let (w, args) ← vaWord args
    return (← printint w 16 false, args, 2)
  else if c0 = 112 then do -- p
    let (w, args) ← vaWord args
    return (printptr digits w, args, 0)
  else if c0 = 99 then do -- c
    let (w, args) ← vaWord args
    return ([UInt8.ofBitVec (w.setWidth 8)], args, 0)
  else if c0 = 115 then do -- s
    let (s, args) ← vaStr args
    return (s.getD [40, 110, 117, 108, 108, 41], args, 0) -- (null)
  else if c0 = 37 then return ([37], args, 0) -- %
  else return ([37, c0], args, 0)

end Numbers

/-- The two characters after `c0`, as far as the format goes. -/
def lookahead (fmt : List UInt8) : UInt8 × UInt8 := (fmt.headD 0, (fmt.drop 1).headD 0)

namespace User

/-- `0123456789ABCDEF` -/
def digits : List UInt8 := [48, 49, 50, 51, 52, 53, 54, 55, 56, 57, 65, 66, 67, 68, 69, 70]

/-- `x` is a `uint`. -/
def printint : BitVec 64 → ℕ → Bool → Except Stop (List UInt8) := printintWide digits 32

/-- The loop over the format; after a `%` the state is `true`. -/
def vprintfFrom : Bool → List UInt8 → List Arg → Except Stop (List UInt8)
  | _, [], _ => return []
  | false, c0 :: fmt, args => do
    if c0 = 37 then vprintfFrom true fmt args else return c0 :: (← vprintfFrom false fmt args)
  | true, c0 :: fmt, args => do
    let (c1, c2) := lookahead fmt
    let (out, args, skip) ← conversion digits printint c0 c1 c2 args
    return out ++ (← vprintfFrom false (fmt.drop skip) args)
  termination_by _ fmt _ => fmt.length

def vprintf : List UInt8 → List Arg → Except Stop (List UInt8) := vprintfFrom false

end User

namespace Kernel

/-- `0123456789abcdef` -/
def digits : List UInt8 := [48, 49, 50, 51, 52, 53, 54, 55, 56, 57, 97, 98, 99, 100, 101, 102]

/-- `x` is an `unsigned long long`. -/
def printint : BitVec 64 → ℕ → Bool → Except Stop (List UInt8) := printintWide digits 64

end Kernel

end Xv6.Printf
