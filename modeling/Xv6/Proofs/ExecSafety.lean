import Xv6.Proofs.AddressBound
import Xv6.Proofs.DirectoryWrites
import Xv6.Sanity.Kexec

/-! No executable can make the kernel panic. -/

namespace Xv6.Exec

open Wp Fs Vm Machine

/-- A process `p` that runs in `cwd`, in a file system and a memory as system calls leave them. -/
structure Sound (sb : Superblock) (K : Kernel) (Y : Set ℕ) (p : Vm.Slot) (cwd : Ip) (σ : St) : Prop where
  fs : ∃ L N i, Tidy sb σ.fs L N ∧ (cwd, i) ∈ L
  root : ROOTINO < sb.ninodes
  vm : Inv K Y σ.vm
  live : (σ.vm.proc p).state = .live

variable {sb : Superblock} {K : Kernel} {Y : Set ℕ} {p : Vm.Slot} {cwd : Ip} {path : List UInt8} {argv : List (List UInt8)} {σ σ' : St}

/-- The states that system calls and the operations on memory lead to. -/
theorem sound_of_runs {s0 : Fs.State} {L : Multiset (Ip × ℕ)} {N : ℕ → Node} {calls : List Call} {τ : Sys} {q : Pid}
    {freelist others : List ℕ} {as : List Vm.Act} {m : Vm.St} {name : Vm.Slot → List UInt8} (hs : SysInv sb (.start s0) L N)
    (hroot : ROOTINO < sb.ninodes) (hcalls : Run (sysStep sb) Free (.start s0) calls τ) (hcwd : (τ.procs q).cwd = some cwd)
    (hnd : (freelist ++ others).Nodup) (hall : ∀ pa, pa ∈ freelist ++ others ↔ pa ∈ area K)
    (has : Run (step K) (Within K) (boot freelist others) as m) (hlive : (m.proc p).state = .live) :
    Sound sb K ∅ p cwd ⟨τ.fs, m, name⟩ := by
  obtain ⟨L', N', hi⟩ := run_sysInv hs hroot hcalls
  obtain ⟨i, hin⟩ := hi.cwd hcwd
  exact ⟨⟨L', N', i, hi.tidy, hin⟩, hroot, run_inv (boot_inv hnd hall) has, hlive⟩

section Returns

variable {L : Multiset (Ip × ℕ)} {N : ℕ → Node} {i : ℕ}

/-- What a sound file system has at the path is read as the bytes it has. The bytes are those of `c`, and the file system is
sound again when the file is closed. -/
theorem openPath_sound {E : Stop → Prop} (h : Tidy sb σ.fs L N) (hroot : ROOTINO < sb.ninodes) (hcwd : (cwd, i) ∈ L) :
    wp (openPath sb cwd path) (fun res s' => match res with
      | none => Tidy sb s' L N
      | some ip => ∃ j, j = (s'.itable ip).inum ∧ Reads sb ip (fun x => x = s') True (contents sb s' j) E ∧
        Closes sb E (fun x => ∃ N', Tidy sb x L N') s' (some ip)) (fun _ => True) σ.fs := by
  refine wp_mono (openPath_ctx h.ctx (h.ready hroot hcwd)) (fun res s' h' => ?_) fun _ => id
  cases res with
  | none => exact h.tame .refl h'
  | some ip =>
    obtain ⟨j, hc⟩ := h'
    refine ⟨j, (hc.inum _ (Multiset.mem_cons_self _ _)).symm, reads_ctx hc, ?_⟩
    exact wp_mono (closes_ctx hc) (fun _ s1 h1 => wp_mono h1 (fun _ s2 h2 => ⟨_, h.tame tame_release h2⟩) fun _ => id) fun _ => id

/-- After an `exec` of a file with the bytes `c`: the process has the page table `r`, with `n` pages of program below the guard
page and `top` bytes in all, and starts at the entry of the header with the arguments on its stack. -/
structure Executed (p : Vm.Slot) (argv : List (List UInt8)) (c : List UInt8) (elf : ElfHdr) (img : ℕ → Option UInt8) (f r n top : ℕ)
    (σ σ' : St) : Prop where
  image : Describes c elf img
  above : ∀ a, n * Vm.PGSIZE ≤ a → img a = none
  trapframe : (σ.vm.proc p).trapframe = some f
  proc : σ'.vm.proc p = { σ.vm.proc p with pagetable := some r, sz := top }
  le : top ≤ TRAPFRAME
  size : top = (n + (USERSTACK + 1)) * Vm.PGSIZE
  stacked : Stacked (leaf σ'.vm.m.mem r) n
  carries : Carries σ'.vm.m r (npages top) (stackImage img top argv)
  fits : FitsStack (top - USERSTACK * Vm.PGSIZE) top argv
  frame : σ'.vm.m.data f = newFrame (σ.vm.m.data f) elf.entry (stackSp top argv)

/-- After `loadPath` has loaded the file `c`: of what is in `σ`, only the file system and the free pages have changed. -/
structure Opened (sb : Superblock) (K : Kernel) (Y : Set ℕ) (p : Vm.Slot) (cwd : Ip) (c : List UInt8) (r sz : ℕ) (elf : ElfHdr) (σ : St)
    (s : Fs.State) (t : Mem) : Prop where
  sound : Sound sb K Y p cwd σ
  fs : ∃ L N i, Tidy sb s L N ∧ (cwd, i) ∈ L
  loaded : ∃ f, (σ.vm.proc p).trapframe = some f ∧
    Loaded K (Vm.roots σ.vm.proc) (held σ.vm.proc σ.vm.others Y) f c True σ.vm.m t r sz elf

theorem Sound.restored (h : Sound sb K Y p cwd σ) {s : Fs.State} {t : Mem} (hs : ∃ L N i, Tidy sb s L N ∧ (cwd, i) ∈ L)
    (ht : Restored K (Vm.roots σ.vm.proc) (held σ.vm.proc σ.vm.others Y) σ.vm.m t) : Sound sb K Y p cwd (σ.put s t) :=
  ⟨hs, h.root, h.vm.memory ht.pages ht.leaves fun _ hf => .inl hf, h.live⟩

/-- `loadPath` stops only where the path does. -/
theorem loadPath_sound (h : Sound sb K Y p cwd σ) :
    wp (loadPath sb K p cwd path) (fun res σ1 => match res with
      | none => Sound sb K Y p cwd σ1
      | some (r, sz, elf) => ∃ ip s1 s t, openPath sb cwd path σ.fs = .ok (some ip, s1) ∧ σ1 = σ.put s t ∧
        Opened sb K Y p cwd (contents sb s1 (s1.itable ip).inum) r sz elf σ s t)
      (fun e => ∃ e', e = .fs e' ∧ openPath sb cwd path σ.fs = .error e') σ := by
  obtain ⟨L, N, i, htidy, hcwd⟩ := h.fs
  obtain ⟨-, f, -, hf, -⟩ := h.vm.live h.live
  refine loadPath_spec True hf h.vm.pages ?_
  refine wp_mono (wp_and (openPath_sound (E := fun e => ∃ e', e = .fs e' ∧ openPath sb cwd path σ.fs = .error e') htidy h.root
    hcwd) wp_run) (fun res s1 h1 => ?_) fun e he => ⟨e, rfl, he.2⟩
  obtain ⟨h1, hopen⟩ := h1
  cases res with
  | none => exact h.restored ⟨L, N, i, h1, hcwd⟩ ⟨h.vm.pages, .refl _ _, fun _ _ => rfl⟩
  | some ip =>
    obtain ⟨j, rfl, hread, hclose⟩ := h1
    refine ⟨fun x => x = s1, _, _, rfl, hread, fun s (hs : s = s1) => by rw [hs]; exact hclose, fun s t hs ht => ?_,
      fun s t r sz elf hs hl => ?_⟩
    · obtain ⟨N', hs⟩ := hs
      exact h.restored ⟨L, N', i, hs, hcwd⟩ ht
    · obtain ⟨N', hs⟩ := hs
      exact ⟨ip, s1, s, t, hopen, rfl, h, ⟨L, N', i, hs, hcwd⟩, f, hf, hl⟩

/-- With the program in place, what follows always returns; it fails for want of memory and for want of stack only. -/
theorem commitImage_sound {E : Stop → Prop} {c : List UInt8} {r sz : ℕ} {elf : ElfHdr} {s : Fs.State} {t : Mem}
    (h : Opened sb K Y p cwd c r sz elf σ s t) (hargv : ∀ arg ∈ argv, arg.length < 2 ^ 31) :
    wp (commitImage sb K p path argv r sz elf) (fun res σ' => Sound sb K Y p cwd σ' ∧ (res = none → ∀ sz1 m1, uvmalloc K r
        (pgRoundUp sz) (pgRoundUp sz + (USERSTACK + 1) * Vm.PGSIZE) (true, false) t = .ok (sz1, m1) → sz1 ≠ 0 →
        argv.length ≤ MAXARG → (∀ arg ∈ argv, arg.length < Vm.PGSIZE) → ¬ FitsStack (sz1 - USERSTACK * Vm.PGSIZE) sz1 argv) ∧
      ∀ argc, res = some argc → argc = argv.length ∧ ∃ img f top, Executed p argv c elf img f r (npages sz) top σ σ') E
      (σ.put s t) := by
  obtain ⟨f, hf, hl⟩ := h.loaded
  obtain ⟨old, -, hold, -, -⟩ := h.sound.vm.live h.sound.live
  refine commitImage_spec hold hargv hl (fun t' ht' hfail => ⟨h.sound.restored h.fs ht', fun _ => hfail, nofun⟩)
    fun img t' top hdesc habove hstage => ?_
  refine wp_mono (switchImage_spec h.sound.vm h.sound.live hold hf hstage.drafted) (fun _ σ' h' => ?_) fun _ => id
  obtain ⟨m', rfl, hinv, hleaf, hcarry, hframe⟩ := h'
  refine ⟨⟨h.fs, h.sound.root, hinv, ?_⟩, nofun, ?_⟩
  · simp only [Function.update_self]
    exact h.sound.live
  rintro _ ⟨⟩
  refine ⟨rfl, img, f, top, hdesc trivial, habove, hf, ?_, hstage.drafted.le, hstage.size, ?_, hcarry, hstage.fits, hframe⟩
  · simp only [Function.update_self]
  · rw [hleaf]
    exact hstage.stacked

/-- `kexec` stops only where the path does, leaves things sound, and if it succeeds has executed the file at the path. -/
theorem kexec_sound (h : Sound sb K Y p cwd σ) (hargv : ∀ arg ∈ argv, arg.length < 2 ^ 31) :
    wp (kexec sb K p cwd path argv) (fun res σ' => Sound sb K Y p cwd σ' ∧ ∀ argc, res = some argc → argc = argv.length ∧
      ∃ ip s1 elf img f r n top, openPath sb cwd path σ.fs = .ok (some ip, s1) ∧
        Executed p argv (contents sb s1 (s1.itable ip).inum) elf img f r n top σ σ')
      (fun e => ∃ e', e = .fs e' ∧ openPath sb cwd path σ.fs = .error e') σ := by
  refine kexec_wp (wp_mono (loadPath_sound h) (fun res σ1 h1 => ?_) fun _ => id)
  cases res with
  | none => exact ⟨h1, nofun⟩
  | some x =>
    obtain ⟨ip, s1, s, t, hopen, rfl, h1⟩ := h1
    refine wp_mono (commitImage_sound h1 hargv) (fun res σ' h2 => ?_) fun _ => id
    obtain ⟨hsound, -, hexec⟩ := h2
    refine ⟨hsound, fun argc hargc => ?_⟩
    obtain ⟨hlen, img, f, top, hx⟩ := hexec argc hargc
    exact ⟨hlen, ip, s1, _, img, f, _, _, top, hopen, hx⟩

end Returns

/-- **No executable can panic the kernel.** Whatever bytes the file has, and whatever the arguments and the memory: `kexec`
reaches no panic of `exec.c`, `vm.c`, `kalloc.c` or `proc.c` and ends, and it does not return only if already the way to the
file and its lock, before the first byte of it is read, do not. -/
theorem exec_never_panics (h : Sound sb K Y p cwd σ) (hargv : ∀ arg ∈ argv, arg.length < 2 ^ 31) :
    (∀ msg, kexec sb K p cwd path argv σ ≠ .error (.panic msg)) ∧ kexec sb K p cwd path argv σ ≠ .error .hang ∧
    (∀ x, openPath sb cwd path σ.fs = .ok x → ∃ y, kexec sb K p cwd path argv σ = .ok y) ∧
    ∀ e, kexec sb K p cwd path argv σ = .error e → ∃ e', e = .fs e' ∧ openPath sb cwd path σ.fs = .error e' := by
  have hstop : ∀ e, kexec sb K p cwd path argv σ = .error e → ∃ e', e = .fs e' ∧ openPath sb cwd path σ.fs = .error e' :=
    fun e he => wp_error (m := kexec sb K p cwd path argv) (kexec_sound h hargv) he
  refine ⟨fun msg he => ?_, fun he => ?_, fun x hx => ?_, hstop⟩
  · obtain ⟨e', he', -⟩ := hstop _ he
    cases he'
  · obtain ⟨e', he', -⟩ := hstop _ he
    cases he'
  · cases hrun : kexec sb K p cwd path argv σ with
    | ok y => exact ⟨y, rfl⟩
    | error e =>
      obtain ⟨e', -, he'⟩ := hstop e hrun
      rw [hx] at he'
      cases he'

section Trial

/-- The first process creates `/p` and writes a file to it. -/
def writeFile (bytes : List UInt8) : List Call := [.open 0 (some [47, 112]) 0x202, .write 0 0 (fun t => bytes[t]?) bytes.length]

/-- It executes the file. -/
def tryExec (argv : List (List UInt8)) (σ : St) : Except Stop (Option ℕ × St) := kexec smallSb smallKernel 0 0 [47, 112] argv σ

def trial (bytes : List UInt8) (argv : List (List UInt8)) (check : Option ℕ → St → Bool) : Bool :=
  (ireclaim smallSb ROOTDEV (.first (mkfs smallSb))).toOption.any fun r =>
    decide ((execIf (sysStep smallSb) (fun _ _ => true) (writeFile bytes) (.start r.2)).Sat fun τ => (τ.procs 0).cwd = some 0 ∧
      (execIf (step smallKernel) (within smallKernel) [.userinit] (boot smallFreelist [])).Sat fun m => (m.proc 0).state = .live ∧
        ((tryExec argv ⟨τ.fs, m, fun _ => []⟩).toOption.any fun x => check x.1 x.2) = true)

theorem trial_sound {bytes : List UInt8} {check : Option ℕ → St → Bool} (h : trial bytes argv check = true) :
    ∃ σ res σ', Sound smallSb smallKernel ∅ 0 0 σ ∧ tryExec argv σ = .ok (res, σ') ∧ check res σ' = true := by
  obtain ⟨s0, h0, hp⟩ := (mkfs_image smallSb_fits).start
  rw [trial, h0] at h
  obtain ⟨τ, hτ, hcwd, hmem⟩ := (of_decide_eq_true h).ok
  obtain ⟨m, hm, hlive, hexec⟩ := hmem.ok
  obtain ⟨x, hx, hcheck⟩ := ok_of_any hexec
  refine ⟨_, x.1, x.2, ?_, hx, hcheck⟩
  exact sound_of_runs (start_inv (hp.tidy (mkfs_image smallSb_fits))) (by decide) (run_of_execIf hτ).free hcwd
    (by decide +kernel) mem_smallFreelist ((run_of_execIf hm).mono fun _ _ h => Within.of_within h) hlive

/-- A header with one program header, which is not there. -/
def elfHeader : List UInt8 := [0x7f, 0x45, 0x4c, 0x46] ++ List.replicate 20 0 ++ leBytes 8 0 ++ leBytes 8 64 ++
  List.replicate 16 0 ++ leBytes 2 1 ++ List.replicate 6 0

theorem elfHeader_fails : trial elfHeader [[112]] (fun res _ => res = none) = true := by decide +kernel

/-- A program of four bytes, in eight bytes of memory, that starts at the third. -/
def program : List UInt8 := [0x7f, 0x45, 0x4c, 0x46] ++ List.replicate 20 0 ++ leBytes 8 2 ++ leBytes 8 64 ++
  List.replicate 16 0 ++ leBytes 2 1 ++ List.replicate 6 0 ++ (leBytes 4 1 ++ leBytes 4 5 ++ leBytes 8 120 ++
  List.replicate 16 0 ++ leBytes 8 4 ++ leBytes 8 8 ++ List.replicate 8 0) ++ [1, 2, 3, 4]

theorem program_runs : trial program [[112], [113, 114]] (fun res _ => res = some 2) = true := by decide +kernel

theorem exec_never_panics_elfHeader : ∃ σ, (∀ msg, tryExec [[112]] σ ≠ .error (.panic msg)) ∧ ∃ y, tryExec [[112]] σ = .ok y := by
  obtain ⟨σ, res, σ', h, hrun, -⟩ := trial_sound elfHeader_fails
  have hsafe : (∀ msg, tryExec [[112]] σ ≠ .error (.panic msg)) ∧ _ := exec_never_panics h (by simp)
  exact ⟨σ, hsafe.1, _, hrun⟩

end Trial

end Xv6.Exec
