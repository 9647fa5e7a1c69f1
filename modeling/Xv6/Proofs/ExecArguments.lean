import Xv6.Proofs.ExecSafety
import Xv6.Sanity.StackLayout

/-! The argument block of a program that has been executed, and when there is no room for it. -/

namespace Xv6.Exec

open Wp Fs Vm

variable {sb : Superblock} {K : Kernel} {Y : Set ℕ} {p : Vm.Slot} {cwd : Ip} {path : List UInt8} {argv : List (List UInt8)} {σ σ' : St}
variable {c : List UInt8} {elf : ElfHdr} {img : ℕ → Option UInt8} {f r n top argc : ℕ}

/-- The user finds `bytes` at address `a`. -/
def Stored (m : Mem) (r a : ℕ) (bytes : List UInt8) : Prop :=
  ∀ k < bytes.length, ∃ e, leaf m.mem r ((a + k) / Vm.PGSIZE) = some e ∧ e.perm.u = true ∧
    bytes[k]? = some (m.data e.pa ((a + k) % Vm.PGSIZE))

/-- Of a new process with the size `top`, what is known of its stack. -/
theorem Executed.bounds (h : Executed p argv c elf img f r n top σ σ') :
    top - USERSTACK * Vm.PGSIZE = (n + 1) * Vm.PGSIZE ∧ Vm.PGSIZE ≤ top - USERSTACK * Vm.PGSIZE := by
  rw [h.size]
  simp only [USERSTACK, Vm.PGSIZE]
  omega

theorem Executed.stored (h : Executed p argv c elf img f r n top σ σ') {x : ℕ × List UInt8}
    (hpair : (stackPieces top argv).Pairwise Under) (hx : x ∈ stackPieces top argv)
    (hin : top - USERSTACK * Vm.PGSIZE ≤ x.1 ∧ x.1 + x.2.length ≤ top) : Stored σ'.vm.m r x.1 x.2 := by
  intro k hk
  have hlo : n < (x.1 + k) / Vm.PGSIZE := by
    refine (Nat.le_div_iff_mul_le (by decide)).mpr ?_
    rw [h.bounds.1] at hin
    exact hin.1.trans (Nat.le_add_right _ k)
  have hhi : (x.1 + k) / Vm.PGSIZE < n + (USERSTACK + 1) := by
    refine Nat.div_lt_of_lt_mul ?_
    rw [Nat.mul_comm, ← h.size]
    omega
  obtain ⟨e, he, hu, -⟩ := h.stacked.stack _ hlo (by omega)
  refine ⟨e, he, hu, ?_⟩
  have hbyte := h.carries.byte _ (by rw [h.size, npages_mul]; exact hhi) e he ((x.1 + k) % Vm.PGSIZE) (Nat.mod_lt _ (by decide))
  rw [Nat.div_add_mod', stackImage_eq, overlays_at hpair hx hk, List.getElem?_eq_getElem hk] at hbyte
  rw [List.getElem?_eq_getElem hk, hbyte]
  rfl

/-- **The argument block of exec.** If `kexec` succeeds, the new stack pointer is a multiple of 16 and is also the second
argument of the program. At it are the pointers and a null pointer, and at every pointer its argument and a NUL; these
pieces lie on the stack pages, one below the other, at the addresses that the subtractions have in the integers. Once
the program is loaded and the stack has its pages, `kexec` returns, and it fails exactly if in the integers the block
would end below the stack. -/
theorem exec_argument_block (h : Sound sb K Y p cwd σ) (hmany : argv.length < MAXARG)
    (hshort : ∀ arg ∈ argv, arg.length < Vm.PGSIZE) :
    (∀ argc σ', kexec sb K p cwd path argv σ = .ok (some argc, σ') → ∃ r f top sp ptrs, argc = argv.length ∧
      (σ'.vm.proc p).pagetable = some r ∧ (σ'.vm.proc p).trapframe = some f ∧ (σ'.vm.proc p).sz = top ∧
      word (σ'.vm.m.data f) SP = leBytes 8 sp ∧ word (σ'.vm.m.data f) A1 = leBytes 8 sp ∧ sp % 16 = 0 ∧
      ptrs.length = argc ∧ Stored σ'.vm.m r sp ((ptrs ++ [0]).flatMap (leBytes 8)) ∧
      (∀ x ∈ ptrs.zip (argv.map (· ++ [0])), Stored σ'.vm.m r x.1 x.2) ∧
      (∀ x ∈ ptrs.zip (argv.map (· ++ [0])) ++ [(sp, (ptrs ++ [0]).flatMap (leBytes 8))],
        top - USERSTACK * Vm.PGSIZE ≤ x.1 ∧ x.1 + x.2.length ≤ top) ∧
      (ptrs.zip (argv.map (· ++ [0])) ++ [(sp, (ptrs ++ [0]).flatMap (leBytes 8))]).Pairwise Under ∧
      ptrs.map (fun ptr : ℕ => (ptr : ℤ)) = intPtrs top argv ∧ (sp : ℤ) = intSp top argv) ∧
    ∀ r sz elf σ1 sz1 m1, loadPath sb K p cwd path σ = .ok (some (r, sz, elf), σ1) →
      uvmalloc K r (pgRoundUp sz) (pgRoundUp sz + (USERSTACK + 1) * Vm.PGSIZE) (true, false) σ1.vm.m = .ok (sz1, m1) → sz1 ≠ 0 →
      (∃ res σ', kexec sb K p cwd path argv σ = .ok (res, σ')) ∧
      ((∃ σ', kexec sb K p cwd path argv σ = .ok (none, σ')) ↔ intSp sz1 argv < (sz1 - USERSTACK * Vm.PGSIZE : ℕ)) := by
  have hargv : ∀ arg ∈ argv, arg.length < 2 ^ 31 := fun arg ha => (hshort arg ha).trans (by decide)
  constructor
  · intro argc σ' hrun
    obtain ⟨-, hexec⟩ := wp_ok (m := kexec sb K p cwd path argv) (kexec_sound h hargv) hrun
    obtain ⟨hlen, ip, s1, elf, img, f, r, n, top, -, hx⟩ := hexec argc rfl
    have htop : top < 2 ^ 64 := hx.le.trans_lt (by decide)
    obtain ⟨hpair, hin, hptrs, hsp⟩ := hx.fits.pieces hmany hshort hx.bounds.2 (Nat.sub_le _ _) htop
    have hstored := fun x hx' => hx.stored (x := x) hpair hx' (hin x hx')
    refine ⟨r, f, top, stackSp top argv, argPtrs top argv, hlen, ?_, ?_, ?_, ?_, ?_, Nat.mul_mod_left _ _, ?_,
      hstored (stackSp top argv, _) (List.mem_append_right _ (List.mem_singleton_self _)),
      fun x hx' => hstored x (List.mem_append_left _ hx'), hin, hpair, hptrs, hsp⟩
    · rw [hx.proc]
    · rw [hx.proc]
      exact hx.trapframe
    · rw [hx.proc]
    · rw [hx.frame, newFrame_sp]
    · rw [hx.frame, newFrame_a1]
    · rw [hlen, length_argPtrs]
  · intro r sz elf σ1 sz1 m1 hload hstack hpos
    obtain ⟨ip, s1, s, t, -, rfl, hopened⟩ := wp_ok (m := loadPath sb K p cwd path) (loadPath_sound h) hload
    obtain ⟨f, -, hl⟩ := hopened.loaded
    obtain ⟨img, hd, -⟩ := hl.image
    have hgrow := wp_ok (m := uvmalloc K r (pgRoundUp sz) (pgRoundUp sz + (USERSTACK + 1) * Vm.PGSIZE) (true, false))
      (uvmalloc_stack hd.image (Set.mem_insert r _) hl.built) hstack
    obtain ⟨hzero, -⟩ | ⟨-, hsz1, -, hb1, -⟩ := hgrow
    · exact absurd hzero hpos
    have hall : wp (commitImage sb K p path argv r sz elf) _ (fun _ => False) (σ.put s t) := commitImage_sound hopened hargv
    obtain ⟨res, σ', hcommit, -, hnone, hsome⟩ := wp_returns hall
    have hrun : kexec sb K p cwd path argv σ = .ok (res, σ') := (bind_ok hload).trans hcommit
    have hbase : sz1 - USERSTACK * Vm.PGSIZE = (npages sz + 1) * Vm.PGSIZE ∧ Vm.PGSIZE ≤ sz1 - USERSTACK * Vm.PGSIZE := by
      rw [hsz1]
      simp only [USERSTACK, Vm.PGSIZE]
      omega
    have hfits := fitsStack_iff hmany hshort hbase.2 (Nat.sub_le _ _) (hb1.le.trans_lt (by decide))
    refine ⟨⟨res, σ', hrun⟩, ?_⟩
    cases res with
    | none =>
      refine iff_of_true ⟨σ', hrun⟩ (not_le.mp fun hle => ?_)
      exact hnone rfl sz1 m1 hstack hpos hmany.le hshort (hfits.mpr hle)
    | some argc =>
      obtain ⟨-, img', f', top, hx⟩ := hsome argc rfl
      obtain rfl : top = sz1 := hx.size.trans hsz1.symm
      refine iff_of_false ?_ (not_lt.mpr (hfits.mp hx.fits))
      rintro ⟨σ'', h''⟩
      rw [hrun] at h''
      cases h''

theorem exec_argument_block_program : ∃ σ σ' : St, ∃ r f top sp ptrs, tryExec [[112], [113, 114]] σ = .ok (some 2, σ') ∧
    (σ'.vm.proc 0).pagetable = some r ∧ word (σ'.vm.m.data f) A1 = leBytes 8 sp ∧ ptrs.length = 2 ∧
    (sp : ℤ) = intSp top [[112], [113, 114]] ∧ Stored σ'.vm.m r sp ((ptrs ++ [0]).flatMap (leBytes 8)) := by
  obtain ⟨σ, res, σ', h, hrun, hres⟩ := trial_sound program_runs
  obtain rfl : res = some 2 := of_decide_eq_true hres
  obtain ⟨r, f, top, sp, ptrs, -, hr, -, -, -, ha1, -, hlen, hptrs, -, -, -, -, hint⟩ :=
    (exec_argument_block h (by decide) (by decide)).1 2 σ' hrun
  exact ⟨σ, σ', r, f, top, sp, ptrs, hrun, hr, ha1, hlen, hint, hptrs⟩

end Xv6.Exec
