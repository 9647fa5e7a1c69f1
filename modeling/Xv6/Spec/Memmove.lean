import Mathlib.Tactic

/-! `memmove` of `kernel/string.c` and of `user/ulib.c`, over all the bytes of a 64-bit address space. Both return the
destination. -/

namespace Xv6.Memmove

/-- A `char *`. -/
abbrev Ptr := BitVec 64

abbrev Mem := Ptr → UInt8

/-- `while(n-- > 0) *d++ = *s++;` -/
def copyUp : ℕ → Ptr → Ptr → Mem → Mem
  | 0, _, _, mem => mem
  | n + 1, d, s, mem => copyUp n (d + 1) (s + 1) (Function.update mem d (mem s))

/-- `while(n-- > 0) *--d = *--s;` -/
def copyDown : ℕ → Ptr → Ptr → Mem → Mem
  | 0, _, _, mem => mem
  | n + 1, d, s, mem => copyDown n (d - 1) (s - 1) (Function.update mem (d - 1) (mem (s - 1)))

namespace Kernel

/-- `n` is a `uint`. -/
def memmove (dst src : Ptr) (n : BitVec 32) (mem : Mem) : Mem × Ptr :=
  if n = 0 then (mem, dst)
  else
    let len : Ptr := n.setWidth 64
    if src < dst ∧ src + len > dst then (copyDown n.toNat (dst + len) (src + len) mem, dst)
    else (copyUp n.toNat dst src mem, dst)

end Kernel

namespace User

/-- `n` is an `int`; where it is negative the loops do not turn. -/
def memmove (dst src : Ptr) (n : BitVec 32) (mem : Mem) : Mem × Ptr :=
  let turns := n.toInt.toNat
  if src > dst then (copyUp turns dst src mem, dst)
  else
    let len : Ptr := n.signExtend 64
    (copyDown turns (dst + len) (src + len) mem, dst)

end User

end Xv6.Memmove
