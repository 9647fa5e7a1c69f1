import Mathlib.Tactic

/-! The byte functions of `user/ulib.c`, over a memory that may only be touched inside. -/

namespace Xv6.Ulib

/-- Why a function does not return: a byte outside of what it may touch, or no end in sight. -/
inductive Stop where
  | outside
  | hang
  deriving DecidableEq

/-- `mem[i]` -/
def load (mem : List UInt8) (i : ℕ) : Except Stop UInt8 :=
  match mem[i]? with
  | some c => .ok c
  | none => .error .outside

/-- `mem[i] = c` -/
def store (mem : List UInt8) (i : ℕ) (c : UInt8) : Except Stop (List UInt8) :=
  if i < mem.length then .ok (mem.set i c) else .error .outside

/-- `strchr`, from a pointer to the memory after it; the result is relative to the pointer. -/
def strchr (c : UInt8) : List UInt8 → Except Stop (Option ℕ)
  | [] => .error .outside
  | b :: s =>
    if b = 0 then return none
    else if b = c then return some 0
    else return (← strchr c s).map (· + 1)

/-- The C string a pointer is at. -/
def cstring : List UInt8 → Except Stop (List UInt8)
  | [] => .error .outside
  | b :: s => if b = 0 then return [] else return b :: (← cstring s)

/-- `while(n-- > 0) *dst++ = *src++;` -/
def copyUp : ℕ → ℕ → ℕ → List UInt8 → Except Stop (List UInt8)
  | 0, _, _, mem => return mem
  | n + 1, dst, src, mem => do
    let c ← load mem src
    let mem ← store mem dst c
    copyUp n (dst + 1) (src + 1) mem

/-- `while(n-- > 0) *--dst = *--src;`, with the pointers before `dst += n` and `src += n`. -/
def copyDown (dst src : ℕ) : ℕ → List UInt8 → Except Stop (List UInt8)
  | 0, mem => return mem
  | n + 1, mem => do
    let c ← load mem (src + n)
    let mem ← store mem (dst + n) c
    copyDown dst src n mem

def memmove (dst src n : ℕ) (mem : List UInt8) : Except Stop (List UInt8) :=
  if src > dst then copyUp n dst src mem else copyDown dst src n mem

end Xv6.Ulib
