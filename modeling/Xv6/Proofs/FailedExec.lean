import Xv6.Proofs.ExecSafety

/-! An `exec` that fails leaves everything as it was. -/

namespace Xv6.Exec

open Wp Fs Vm

variable {sb : Superblock} {K : Kernel} {p : Vm.Slot} {cwd : Ip} {path : List UInt8} {argv : List (List UInt8)} {σ σ' : St}

section Failure

variable {roots pend : Set ℕ} {f old : ℕ} {base : Ip → ℕ} {tr : List TxEvent} {B : Finset Ip}

/-- For any view of the memory: `roots` are page tables, and `pend` are pages that somebody holds. -/
theorem kexec_none (hf : (σ.vm.proc p).trapframe = some f) (hold : (σ.vm.proc p).pagetable = some old)
    (hargv : ∀ arg ∈ argv, arg.length < 2 ^ 31) (hfs : Acct base tr false 0 B σ.fs) (h : Pages K roots pend σ.vm.m) :
    wp (kexec sb K p cwd path argv) (fun res σ' => res = none → ∃ s' t', σ' = σ.put s' t' ∧ Acct base tr false 0 B s' ∧
      Restored K roots pend σ.vm.m t') (fun _ => True) σ := by
  refine kexec_wp (loadPath_spec False hf h (wp_mono (openPath_acct hfs) (fun res s1 h1 => ?_) fun _ => id))
  cases res with
  | none => exact fun _ => ⟨s1, σ.vm.m, rfl, h1, h, .refl _ _, fun _ _ => rfl⟩
  | some ip =>
    obtain ⟨hk, h1⟩ := h1
    refine ⟨_, _, [], h1, reads_acct, fun s hs => closes_acct hk hs, fun s t hs ht _ => ⟨s, t, rfl, hs, ht⟩,
      fun s t r sz elf hs hl => ?_⟩
    refine commitImage_spec hold hargv hl (fun t' ht' _ _ => ⟨s, t', rfl, hs, ht'⟩) fun img t' top _ _ _ => ?_
    exact wp_mono wp_true (fun _ _ _ hn => nomatch hn) fun _ => id

end Failure

/-- **A failed exec changes nothing.** Whatever is in the file system, where the path leads and how much memory there is: if
`kexec` fails, the processes have the page tables, sizes and trapframes they have had, and their names; the page tables map
what they have mapped; every page that was in use, of whatever process, holds what it has held; the free pages are the free
pages of before; and in the file system the call has made whole transactions, holds no lock that was not held before and has
given all references back. -/
theorem failed_exec_changes_nothing {Y : Set ℕ} (h : Inv K Y σ.vm) (hp : (σ.vm.proc p).state = .live)
    (hargv : ∀ arg ∈ argv, arg.length < 2 ^ 31) (hrun : kexec sb K p cwd path argv σ = .ok (none, σ')) :
    (σ'.vm.proc = σ.vm.proc ∧ σ'.name = σ.name) ∧
    (∀ q r, (σ.vm.proc q).pagetable = some r → leaf σ'.vm.m.mem r = leaf σ.vm.m.mem r) ∧
    (∀ pa ∈ area K, pa ∉ σ.vm.m.freelist → σ'.vm.m.data pa = σ.vm.m.data pa) ∧
    σ'.vm.m.freelist.Perm σ.vm.m.freelist ∧
    (∀ jp, (σ'.fs.itable jp).ref = (σ.fs.itable jp).ref ∧ (σ'.fs.itable jp).locked = (σ.fs.itable jp).locked) ∧
    ∃ ks : List ℕ, σ'.fs.trace = σ.fs.trace ++ ks.flatMap transaction := by
  obtain ⟨old, f, hold, hf, -⟩ := h.live hp
  have hfs : Acct (fun jp => (σ.fs.itable jp).ref) σ.fs.trace false 0
      (Finset.univ.filter fun jp => (σ.fs.itable jp).locked = true) σ.fs := by
    refine ⟨fun jp => ?_, fun jp => ?_, [], ?_⟩
    · rw [Multiset.count_zero, Nat.add_zero]
    · rw [Finset.mem_filter, and_iff_right (Finset.mem_univ jp)]
    · exact (List.append_nil _).symm
  have hall := h.pages.all_held
  obtain ⟨s', t', rfl, hfs', hrest⟩ := wp_ok (m := kexec sb K p cwd path argv) (kexec_none hf hold hargv hfs h.pages) hrun rfl
  obtain ⟨_, _, heq, -, hfree⟩ := wp_ok (m := kexec sb K p cwd path argv) (kexec_none hf hold hargv hfs hall) hrun rfl
  cases heq
  refine ⟨⟨rfl, rfl⟩, fun q r hr => hrest.leaves.leaf r (Holders.mem_holdings hr), fun pa ha hn => hfree.held pa ⟨ha, hn⟩, ?_,
    fun jp => ⟨?_, ?_⟩, hfs'.trace⟩
  · refine (List.perm_ext_iff_of_nodup hfree.pages.nodup h.pages.nodup).mpr fun pa => ⟨fun hin => ?_, fun hin => ?_⟩
    · have ha := hfree.pages.free pa hin
      by_contra hn
      exact (hfree.pages.free_iff ha).mp hin ⟨ha, hn⟩
    · exact (hfree.pages.free_iff (h.pages.free pa hin)).mpr fun hn => hn.2 hin
  · exact (hfs'.ref jp).trans (by rw [Multiset.count_zero, Nat.add_zero])
  · rw [Bool.eq_iff_iff]
    exact (hfs'.lock jp).trans (hfs.lock jp).symm

theorem failed_exec_changes_nothing_elfHeader : ∃ σ σ' : St, tryExec [[112]] σ = .ok (none, σ') ∧
    σ'.vm.proc = σ.vm.proc ∧ σ'.vm.m.freelist.Perm σ.vm.m.freelist := by
  obtain ⟨σ, res, σ', h, hrun, hres⟩ := trial_sound elfHeader_fails
  obtain rfl : res = none := of_decide_eq_true hres
  obtain ⟨⟨hproc, -⟩, -, -, hfree, -⟩ := failed_exec_changes_nothing h.vm h.live (by simp) hrun
  exact ⟨σ, σ', hrun, hproc, hfree⟩

end Xv6.Exec
