import Xv6.Lib.Machine
import Xv6.Spec.Inode

/-! Sequences of operations on inodes, each under the conditions its comment in
`fs.c` asks of the caller: a reference, and for all that touches the contents of an
inode its lock. -/

namespace Xv6.Fs

open Machine

/-- A call that panics stops the system; one that would wait for itself is not taken. -/
def toOutcome {α : Type} : Except Stop (α × State) → Outcome State
  | .ok r => .ok r.2
  | .error (.panic msg) => .panic msg
  | .error .hang => .blocked

inductive Op where
  | iget (inum : ℕ)
  | idup (ip : Ip)
  | ialloc (type : Int16)
  | ilock (ip : Ip)
  | iunlock (ip : Ip)
  | assign (ip : Ip) (major minor nlink : Int16)
  | bmap (ip : Ip) (bn : ℕ)
  | writei (ip : Ip) (src : Src) (off n : UInt32)
  | itrunc (ip : Ip)
  | iupdate (ip : Ip)
  | iput (ip : Ip)

/-- The caller has a reference to `ip`, and its lock. -/
def State.Ref (s : State) (ip : Ip) : Prop := 0 < (s.itable ip).ref

def State.Held (s : State) (ip : Ip) : Prop :=
  0 < (s.itable ip).ref ∧ (s.itable ip).locked = true ∧ (s.itable ip).valid = true

instance (s : State) (ip : Ip) : Decidable (s.Ref ip) := inferInstanceAs (Decidable (_ < _))
instance (s : State) (ip : Ip) : Decidable (s.Held ip) := inferInstanceAs (Decidable (_ ∧ _ ∧ _))

/-- The condition under which `op` may be called. -/
def Op.May (sb : Superblock) (s : State) : Op → Prop
  | .iget inum => inum < sb.ninodes
  | .ialloc _ => True
  | .idup ip | .ilock ip => s.Ref ip
  | .iunlock ip | .assign ip _ _ _ | .bmap ip _ | .writei ip _ _ _ | .itrunc ip | .iupdate ip => s.Held ip
  | .iput ip => s.Ref ip ∧ ((s.itable ip).locked = true → 1 < (s.itable ip).ref)

instance (sb : Superblock) (s : State) (op : Op) : Decidable (op.May sb s) := by
  cases op <;> unfold Op.May <;> infer_instance

def Op.run (sb : Superblock) : Op → FsM Unit
  | .iget inum => do let _ ← Fs.iget ROOTDEV inum
  | .idup ip => do let _ ← Fs.idup ip
  | .ialloc type => do let _ ← Fs.ialloc sb ROOTDEV type
  | .ilock ip => Fs.ilock sb ip
  | .iunlock ip => Fs.iunlock ip
  | .assign ip major minor nlink => setD ip fun d => { d with major := major, minor := minor, nlink := nlink }
  | .bmap ip bn => do let _ ← Fs.bmap sb ip bn
  | .writei ip src off n => do let _ ← Fs.writei sb ip src off n
  | .itrunc ip => Fs.itrunc sb ip
  | .iupdate ip => Fs.iupdate sb ip
  | .iput ip => Fs.iput sb ip

def step (sb : Superblock) (op : Op) (s : State) : Outcome State :=
  if op.May sb s then toOutcome ((op.run sb).run s) else .blocked

end Xv6.Fs
