import Xv6.Proofs.UserCopies
import Xv6.Sanity.FileRead
import Xv6.Spec.Mkfs

/-! What `piperead` and `consoleread` take from their queues. -/

namespace Xv6.Read

open Wp Vm Machine
open Console (consoleintr ctrl newline)

variable {K : Kernel} {r sz : ℕ}

/-- The bytes 7 and 8 have been written to a pipe. -/
def written : Pipe := ((Pipe.pipealloc fun _ => 0).put 0 7).put 0 8

/-- An `a` and a newline have been typed. -/
def typed : Console.Cons := (consoleintr newline (consoleintr 97 Console.start.cons).1).1

def waiting (m : Mem) : St := ⟨.boot fun _ => Bytes.ByteVec.zero, m, written, typed⟩

end Xv6.Read
