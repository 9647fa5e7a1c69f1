import Xv6.Spec.Sysfile
import Xv6.Lib.Wp

/-! Rules for programs over the file table and the processes. -/

namespace Xv6.Fs

open Wp

variable {σ : Sys} {E : Stop → Prop}

@[simp] theorem wp_liftFs {α : Type} {m : FsM α} {Q : α → Sys → Prop} :
    wp (liftFs m) Q E σ ↔ wp m (fun a s => Q a { σ with fs := s }) E σ.fs := by
  simp only [wp, liftFs]
  cases m σ.fs with
  | ok r => rfl
  | error e => rfl

@[simp] theorem wp_getFile {f : FileIx} {Q : File → Sys → Prop} : wp (getFile f) Q E σ ↔ Q (σ.ftable f) σ := Iff.rfl

@[simp] theorem wp_setFile {f : FileIx} {file : File} {Q : Unit → Sys → Prop} :
    wp (setFile f file) Q E σ ↔ Q () { σ with ftable := Function.update σ.ftable f file } := Iff.rfl

@[simp] theorem wp_getProc {p : Pid} {Q : Proc → Sys → Prop} : wp (getProc p) Q E σ ↔ Q (σ.procs p) σ := Iff.rfl

@[simp] theorem wp_setProc {p : Pid} {proc : Proc} {Q : Unit → Sys → Prop} :
    wp (setProc p proc) Q E σ ↔ Q () { σ with procs := Function.update σ.procs p proc } := Iff.rfl

end Xv6.Fs
