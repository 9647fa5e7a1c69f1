import Xv6.Lib.Frame
import Xv6.Spec.Exec

/-! The parts of the file system that neither take nor give back references, locks and transactions. -/

namespace Xv6.Fs

open Wp

/-- What is counted: the references and the lock of every entry of the table, and the calls recorded. -/
def State.held (s : State) : (Ip → ℕ × Bool) × List TxEvent := (fun jp => ((s.itable jp).ref, (s.itable jp).locked), s.trace)

variable {sb : Superblock} {ip : Ip}

section Blocks

theorem held_setInode {s : State} {e : Inode} (hr : e.ref = (s.itable ip).ref) (hl : e.locked = (s.itable ip).locked) :
    (s.setInode ip e).held = s.held := by
  refine Prod.ext (funext fun jp => ?_) rfl
  by_cases hj : jp = ip
  · subst hj
    simp only [State.held, State.setInode, Function.update_self, hr, hl]
  · simp only [State.held, State.setInode, Function.update_of_ne hj]

theorem preserves_bread (b : ℕ) : Preserves State.held (bread b) := preserves_bind preserves_get fun _ => preserves_pure _

theorem preserves_logWrite (b : ℕ) (d : Block) : Preserves State.held (logWrite b d) := preserves_modify fun _ => rfl

theorem preserves_getInode : Preserves State.held (getInode ip) := preserves_bind preserves_get fun _ => preserves_pure _

theorem preserves_setD (f : Dinode → Dinode) : Preserves State.held (setD ip f) := by
  intro v s hs
  have hset : (s.setInode ip { s.itable ip with d := f (s.itable ip).d }).held = s.held := held_setInode rfl rfl
  exact hset.trans hs

theorem preserves_ballocFrom (n b : ℕ) : Preserves State.held (ballocFrom sb n b) := by
  induction n generalizing b with
  | zero => exact preserves_pure _
  | succ n ih =>
    refine preserves_ite (preserves_bind (preserves_bread _) fun bp => ?_) (preserves_pure _)
    cases findFree bp b sb.size BPB 0 with
    | none => exact ih _
    | some bi =>
      exact preserves_bind (preserves_logWrite _ _) fun _ => preserves_bind (preserves_logWrite _ _) fun _ => preserves_pure _

theorem preserves_balloc : Preserves State.held (balloc sb) := preserves_ballocFrom _ _

theorem preserves_bfree (b : UInt32) : Preserves State.held (bfree sb b) :=
  preserves_bind (preserves_bread _) fun _ => preserves_ite (preserves_logWrite _ _) (preserves_throw _)

theorem preserves_iupdate : Preserves State.held (iupdate sb ip) :=
  preserves_bind preserves_getInode fun _ => preserves_bind (preserves_bread _) fun _ => preserves_logWrite _ _

end Blocks

section Content

theorem preserves_addrOrAlloc (k : Fin (NDIRECT + 1)) : Preserves State.held (addrOrAlloc sb ip k) :=
  preserves_bind preserves_getInode fun _ => preserves_ite
    (preserves_bind preserves_balloc fun _ => preserves_ite (preserves_pure _)
      (preserves_bind (preserves_setD _) fun _ => preserves_pure _))
    (preserves_pure _)

theorem preserves_bmapEntry (ind : UInt32) (bn : ℕ) : Preserves State.held (bmapEntry sb ind bn) :=
  preserves_bind (preserves_bread _) fun _ => preserves_ite
    (preserves_bind preserves_balloc fun _ => preserves_ite (preserves_pure _)
      (preserves_bind (preserves_bread _) fun _ => preserves_bind (preserves_logWrite _ _) fun _ => preserves_pure _))
    (preserves_pure _)

theorem preserves_bmap (bn : ℕ) : Preserves State.held (bmap sb ip bn) := by
  unfold bmap
  split_ifs
  · exact preserves_addrOrAlloc _
  · exact preserves_bind (preserves_addrOrAlloc _) fun _ => preserves_ite (preserves_pure _) (preserves_bmapEntry _ _)
  · exact preserves_throw _

theorem preserves_truncDirect (k : Fin (NDIRECT + 1)) : Preserves State.held (truncDirect sb ip k) :=
  preserves_bind preserves_getInode fun _ => preserves_ite (preserves_pure _)
    (preserves_bind (preserves_bfree _) fun _ => preserves_setD _)

theorem preserves_truncEntry (ind : UInt32) (j : ℕ) : Preserves State.held (truncEntry sb ind j) :=
  preserves_bind (preserves_bread _) fun _ => preserves_ite (preserves_pure _) (preserves_bfree _)

theorem preserves_truncIndirect : Preserves State.held (truncIndirect sb ip) :=
  preserves_bind preserves_getInode fun _ => preserves_ite (preserves_pure _)
    (preserves_bind (preserves_repeatFrom (preserves_truncEntry _) _ _) fun _ =>
      preserves_bind (preserves_bfree _) fun _ => preserves_setD _)

theorem preserves_itrunc : Preserves State.held (itrunc sb ip) :=
  preserves_bind (preserves_repeatFrom (fun _ => preserves_truncDirect _) _ _) fun _ =>
    preserves_bind preserves_truncIndirect fun _ => preserves_bind (preserves_setD _) fun _ => preserves_iupdate

theorem preserves_readiFrom (dst : Dst) (n k tot off : ℕ) (acc : List UInt8) :
    Preserves State.held (readiFrom sb ip dst n k tot off acc) := by
  induction k generalizing tot off acc with
  | zero => exact preserves_pure _
  | succ k ih =>
    exact preserves_ite (preserves_bind (preserves_bmap _) fun _ => preserves_ite (preserves_pure _)
      (preserves_bind (preserves_bread _) fun _ => preserves_ite (ih _ _ _) (preserves_pure _))) (preserves_pure _)

theorem preserves_readi (dst : Dst) (off n : UInt32) : Preserves State.held (readi sb ip dst off n) :=
  preserves_bind preserves_getInode fun _ => preserves_ite (preserves_pure _) (preserves_readiFrom _ _ _ _ _ _)

end Content

end Xv6.Fs
