import Xv6.Sanity.Sys

/-! The pointers to inodes outside the inode table: one in every open file, and the working directory of every process. -/

namespace Xv6.Fs

def File.ptr (ff : File) : Multiset Ip := if ff.type = .none then 0 else {ff.ip}

def Proc.ptr (proc : Proc) : Multiset Ip :=
  match proc.cwd with
  | none => 0
  | some ip => {ip}

def filePtrs (table : FileIx → File) : Multiset Ip := ∑ f, (table f).ptr

def cwdPtrs (procs : Pid → Proc) : Multiset Ip := ∑ p, (procs p).ptr

/-- The inodes that files and processes point to, as often as they do. -/
def ptrs (σ : Sys) : Multiset Ip := filePtrs σ.ftable + cwdPtrs σ.procs

section Update

variable {σ : Sys} {f : FileIx} {ff : File} {p : Pid} {proc : Proc} {ip : Ip}

/-- A sum of which one term changes. -/
theorem sum_update {α β M : Type*} [Fintype α] [DecidableEq α] [AddCommMonoid M] (g : β → M) (h : α → β) (a : α) (b : β) :
    ∑ x, g (Function.update h a b x) + g (h a) = ∑ x, g (h x) + g b := by
  rw [← Finset.add_sum_erase _ _ (Finset.mem_univ a), ← Finset.add_sum_erase _ (fun x => g (h x)) (Finset.mem_univ a),
    Function.update_self]
  have hrest : ∑ x ∈ Finset.univ.erase a, g (Function.update h a b x) = ∑ x ∈ Finset.univ.erase a, g (h x) :=
    Finset.sum_congr rfl fun x hx => by rw [Function.update_of_ne (Finset.ne_of_mem_erase hx)]
  rw [hrest, add_right_comm, add_comm (g b), add_right_comm]

theorem filePtrs_update (table : FileIx → File) :
    filePtrs (Function.update table f ff) + (table f).ptr = filePtrs table + ff.ptr := sum_update File.ptr table f ff

theorem cwdPtrs_update (procs : Pid → Proc) :
    cwdPtrs (Function.update procs p proc) + (procs p).ptr = cwdPtrs procs + proc.ptr := sum_update Proc.ptr procs p proc

theorem ptrs_setFile : ptrs { σ with ftable := Function.update σ.ftable f ff } + (σ.ftable f).ptr = ptrs σ + ff.ptr := by
  rw [ptrs, ptrs, add_right_comm, filePtrs_update, add_right_comm]

theorem ptrs_setProc : ptrs { σ with procs := Function.update σ.procs p proc } + (σ.procs p).ptr = ptrs σ + proc.ptr := by
  rw [ptrs, ptrs, add_assoc, cwdPtrs_update, add_assoc]

/-- A file that points where it did before. -/
theorem ptrs_setFile_same (h : ff.ptr = (σ.ftable f).ptr) :
    ptrs { σ with ftable := Function.update σ.ftable f ff } = ptrs σ := by
  refine add_right_cancel (b := (σ.ftable f).ptr) ?_
  rw [ptrs_setFile, h]

theorem ptrs_setProc_same (h : proc.ptr = (σ.procs p).ptr) :
    ptrs { σ with procs := Function.update σ.procs p proc } = ptrs σ := by
  refine add_right_cancel (b := (σ.procs p).ptr) ?_
  rw [ptrs_setProc, h]

theorem ptr_open (h : ff.type ≠ .none) : ff.ptr = {ff.ip} := if_neg h

theorem ptr_closed (h : ff.type = .none) : ff.ptr = 0 := if_pos h

theorem ptr_cwd (h : proc.cwd = some ip) : proc.ptr = {ip} := by rw [Proc.ptr, h]

theorem ptr_exited (h : proc.cwd = none) : proc.ptr = 0 := by rw [Proc.ptr, h]

theorem mem_filePtrs (h : (σ.ftable f).type ≠ .none) : (σ.ftable f).ip ∈ filePtrs σ.ftable := by
  refine Multiset.mem_of_le (Finset.single_le_sum (f := fun f => (σ.ftable f).ptr) (fun _ _ => Multiset.zero_le _)
    (Finset.mem_univ f)) ?_
  rw [ptr_open h]
  exact Multiset.mem_singleton_self _

theorem mem_ptrs_file (h : (σ.ftable f).type ≠ .none) : (σ.ftable f).ip ∈ ptrs σ :=
  Multiset.mem_add.mpr (.inl (mem_filePtrs h))

theorem singleton_le_cwdPtrs (h : (σ.procs p).cwd = some ip) : {ip} ≤ cwdPtrs σ.procs := by
  rw [← ptr_cwd h]
  exact Finset.single_le_sum (f := fun p => (σ.procs p).ptr) (fun _ _ => Multiset.zero_le _) (Finset.mem_univ p)

theorem mem_ptrs_cwd (h : (σ.procs p).cwd = some ip) : ip ∈ ptrs σ :=
  Multiset.mem_add.mpr (.inr (Multiset.singleton_le.mp (singleton_le_cwdPtrs h)))

/-- The files point to what is left without the working directory of `p`. -/
theorem filePtrs_le {m : Multiset Ip} (hp : (σ.procs p).cwd = some ip) (h : ip ::ₘ m = ptrs σ) : filePtrs σ.ftable ≤ m := by
  obtain ⟨rest, hrest⟩ := Multiset.le_iff_exists_add.mp (singleton_le_cwdPtrs hp)
  rw [ptrs, hrest, add_left_comm, Multiset.singleton_add, Multiset.cons_inj_right] at h
  rw [h]
  exact Multiset.le_add_right _ _

/-- At the start there is one pointer, the working directory of the first process. -/
theorem ptrs_start (s : State) : ptrs (.start s) = {0} := by
  have hfiles : filePtrs (Sys.start s).ftable = 0 := Finset.sum_eq_zero fun f _ => rfl
  have hcwd : cwdPtrs (Sys.start s).procs = {0} := by
    rw [cwdPtrs, Finset.sum_eq_single initproc]
    · rfl
    · intro p _ hp
      exact ptr_exited (if_neg hp)
    · intro hp
      exact absurd (Finset.mem_univ _) hp
  rw [ptrs, hfiles, hcwd, zero_add]

end Update

end Xv6.Fs
