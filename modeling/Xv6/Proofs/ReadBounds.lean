import Xv6.Proofs.ShortWrite
import Xv6.Proofs.UserCopies
import Xv6.Sanity.FileRead

/-! `fileread` and the length it is called with. -/

namespace Xv6.Read

open Wp Vm Fs Machine

variable {K : Kernel} {r sz : ℕ} {σ : St} {sb : Superblock} {n : BitVec 32} {off size : UInt32}

section Length

end Length

/-- The pipe and the console of a process that uses neither. -/
def idle (s : Fs.State) (m : Mem) : St := ⟨s, m, Pipe.pipealloc fun _ => 0, Console.start.cons⟩

end Xv6.Read
