import Xv6.Proofs.ExecSafety

/-! `exec` loads the image that the program headers describe. -/

namespace Xv6.Exec

open Wp Fs Vm

/-- A header that has something to load at address `a`. -/
def covers (a : ℕ) (ph : ProgHdr) : Bool :=
  ph.type = ELF_PROG_LOAD.toNat ∧ ph.vaddr ≤ a ∧ a < ph.vaddr + ph.filesz

/-- The last header, in the order of the table, that has something to load at `a`. -/
def lastCovering (hs : List ProgHdr) (a : ℕ) : Option ProgHdr := (hs.filter (covers a)).getLast?

section Headers

variable {cs : List UInt8} {img : ℕ → Option UInt8} {ph : ProgHdr} {a : ℕ}

theorem loadOne_covered (hc : Complete cs ph) (h : covers a ph = true) :
    loadOne cs img ph a = cs[ph.off % 2 ^ 32 + (a - ph.vaddr)]? := by
  obtain ⟨htype, hlo, hhi⟩ := of_decide_eq_true h
  have hlen : (segment cs ph).length = ph.filesz := by
    rcases hc htype with h0 | hle
    · omega
    · exact length_slice hle
  rw [loadOne, if_pos htype, overlay, hlen, if_pos ⟨hlo, hhi⟩, segment, slice, List.getElem?_take_of_lt (by omega),
    List.getElem?_drop]

theorem loadOne_uncovered (h : ¬ covers a ph = true) : loadOne cs img ph a = img a := by
  rw [loadOne]
  split_ifs with htype
  · refine if_neg fun hin => h (decide_eq_true ⟨htype, hin.1, hin.2.trans_le ?_⟩)
    have : (segment cs ph).length ≤ ph.filesz := List.length_take_le ..
    omega
  · rfl

/-- Headers overwrite what the ones before them have loaded. -/
theorem foldl_loadOne (hs : List ProgHdr) (hc : ∀ ph ∈ hs, Complete cs ph) :
    hs.foldl (loadOne cs) img a = match lastCovering hs a with
      | none => img a
      | some ph => cs[ph.off % 2 ^ 32 + (a - ph.vaddr)]? := by
  induction hs using List.reverseRecOn with
  | nil => rfl
  | append_singleton hs ph ih =>
    have hph : Complete cs ph := hc ph (List.mem_append_right _ (List.mem_singleton_self ph))
    rw [List.foldl_append, List.foldl_cons, List.foldl_nil, lastCovering, List.filter_append]
    by_cases h : covers a ph = true
    · rw [loadOne_covered hph h, List.filter_singleton, h, cond_true, List.getLast?_concat]
    · rw [loadOne_uncovered h, ih fun ph' h' => hc ph' (List.mem_append_left _ h'), List.filter_singleton,
        Bool.not_eq_true _ |>.mp h, cond_false, List.append_nil]
      rfl

end Headers

variable {sb : Superblock} {K : Kernel} {Y : Set ℕ} {p : Vm.Slot} {cwd : Ip} {path : List UInt8} {argv : List (List UInt8)} {σ σ' : St}
variable {cs : List UInt8} {elf : ElfHdr} {img : ℕ → Option UInt8} {f r n top argc : ℕ}

/-- What the memory below the guard page holds at `a`. -/
theorem Executed.byte (h : Executed p argv cs elf img f r n top σ σ') {a : ℕ} (ha : a < n * Vm.PGSIZE) :
    ∃ e, leaf σ'.vm.m.mem r (a / Vm.PGSIZE) = some e ∧ e.perm.u = true ∧
      match lastCovering (headers cs elf.phnum (elf.phoff % 2 ^ 32)) a with
      | none => σ'.vm.m.data e.pa (a % Vm.PGSIZE) = 0
      | some ph => cs[ph.off % 2 ^ 32 + (a - ph.vaddr)]? = some (σ'.vm.m.data e.pa (a % Vm.PGSIZE)) := by
  have hv : a / Vm.PGSIZE < n := Nat.div_lt_of_lt_mul (by rwa [Nat.mul_comm] at ha)
  obtain ⟨e, he, hu⟩ := h.stacked.program _ hv
  have hlow : a < top - USERSTACK * Vm.PGSIZE := by
    rw [h.size]
    simp only [USERSTACK, Vm.PGSIZE] at ha ⊢
    omega
  have htop : a / Vm.PGSIZE < npages top := by
    rw [h.size, npages_mul]
    omega
  have hbyte := h.carries.byte _ htop e he (a % Vm.PGSIZE) (Nat.mod_lt _ (by decide))
  rw [Nat.div_add_mod', stackImage_below img h.fits hlow, h.image.image, foldl_loadOne _ h.image.complete] at hbyte
  refine ⟨e, he, hu, ?_⟩
  cases hlast : lastCovering (headers cs elf.phnum (elf.phoff % 2 ^ 32)) a with
  | none =>
    rw [hlast] at hbyte
    exact hbyte
  | some ph =>
    rw [hlast] at hbyte
    obtain ⟨hmem, hcov⟩ := List.mem_filter.mp (List.mem_of_getLast? hlast)
    obtain ⟨htype, hlo, hhi⟩ := of_decide_eq_true hcov
    have hlen : ph.off % 2 ^ 32 + (a - ph.vaddr) < cs.length := by
      rcases h.image.complete ph hmem htype with h0 | hle <;> omega
    dsimp only at hbyte ⊢
    rw [List.getElem?_eq_getElem hlen] at hbyte ⊢
    exact congrArg some hbyte.symm

/-- **Exec loads the image that the headers describe.** If `kexec` succeeds, it has found a file at the path. With its bytes
`cs`, its header `elf` and its program headers, every page below the guard page is mapped for the user, and an address there
holds the byte of the file that the last header to cover it has for it, or zero if there is none. The guard page is not for
the user, the pages between it and `sz` are `USERSTACK` writable ones, and the program starts at the entry of the header. -/
theorem exec_loads_the_image (h : Sound sb K Y p cwd σ) (hargv : ∀ arg ∈ argv, arg.length < 2 ^ 31)
    (hrun : kexec sb K p cwd path argv σ = .ok (some argc, σ')) :
    ∃ ip s1 cs elf r f n, openPath sb cwd path σ.fs = .ok (some ip, s1) ∧ cs = contents sb s1 (s1.itable ip).inum ∧
      elf = ElfHdr.decode (slice cs 0 64) ∧ (σ'.vm.proc p).pagetable = some r ∧ (σ'.vm.proc p).trapframe = some f ∧
      (σ'.vm.proc p).sz = (n + 1 + USERSTACK) * Vm.PGSIZE ∧
      (∀ a < n * Vm.PGSIZE, ∃ e, leaf σ'.vm.m.mem r (a / Vm.PGSIZE) = some e ∧ e.perm.u = true ∧
        match lastCovering (headers cs elf.phnum (elf.phoff % 2 ^ 32)) a with
        | none => σ'.vm.m.data e.pa (a % Vm.PGSIZE) = 0
        | some ph => cs[ph.off % 2 ^ 32 + (a - ph.vaddr)]? = some (σ'.vm.m.data e.pa (a % Vm.PGSIZE))) ∧
      (∃ e, leaf σ'.vm.m.mem r n = some e ∧ e.perm.u = false) ∧
      (∀ v, n < v → v ≤ n + USERSTACK → ∃ e, leaf σ'.vm.m.mem r v = some e ∧ e.perm.u = true ∧ e.perm.w = true) ∧
      word (σ'.vm.m.data f) EPC = leBytes 8 elf.entry := by
  obtain ⟨-, hexec⟩ := wp_ok (m := kexec sb K p cwd path argv) (kexec_sound h hargv) hrun
  obtain ⟨-, ip, s1, elf, img, f, r, n, top, hopen, hx⟩ := hexec argc rfl
  refine ⟨ip, s1, _, elf, r, f, n, hopen, rfl, hx.image.header, ?_, ?_, ?_, fun a ha => hx.byte ha, hx.stacked.guard,
    hx.stacked.stack, ?_⟩
  · rw [hx.proc]
  · rw [hx.proc]
    exact hx.trapframe
  · rw [hx.proc, Nat.add_assoc, Nat.add_comm 1]
    exact hx.size
  · rw [hx.frame, newFrame_epc]

theorem exec_loads_the_image_program : ∃ σ σ' : St, ∃ r f, (σ'.vm.proc 0).pagetable = some r ∧
    (σ'.vm.proc 0).trapframe = some f ∧ tryExec [[112], [113, 114]] σ = .ok (some 2, σ') := by
  obtain ⟨σ, res, σ', h, hrun, hres⟩ := trial_sound program_runs
  obtain rfl : res = some 2 := of_decide_eq_true hres
  obtain ⟨_, _, _, _, r, f, _, -, -, -, hr, hf, -⟩ := exec_loads_the_image h (by simp) hrun
  exact ⟨σ, σ', r, f, hr, hf, hrun⟩

end Xv6.Exec
