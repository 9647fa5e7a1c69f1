import Xv6.Sanity.DirEdits
import Xv6.Sanity.Pointers

/-! The calls of a run, one after the other. Files and working directories account for all references to inodes, and a
file that can be written is not a directory. -/

namespace Xv6.Fs

open Wp

variable {sb : Superblock} {σ σ' : Sys} {L L' : Multiset (Ip × ℕ)} {N N' : ℕ → Node} {c : Call} {f : FileIx} {p : Pid} {ip cp : Ip}
  {i : ℕ}

/-- Between calls: the references are those of files and processes, and no file that can be written is a directory. -/
structure SysInv (sb : Superblock) (σ : Sys) (L : Multiset (Ip × ℕ)) (N : ℕ → Node) : Prop where
  tidy : Tidy sb σ.fs L N
  refs : L.map Prod.fst = ptrs σ
  idle : ∀ f, (σ.ftable f).ref = 0 → (σ.ftable f).type = .none
  ro : ∀ f, (σ.ftable f).type ≠ .none → (σ.ftable f).writable = true → ∀ i, ((σ.ftable f).ip, i) ∈ L → (N i).type ≠ T_DIR

/-- What a call leaves of open files and of directories. -/
structure Moved (c : Call) (σ : Sys) (L : Multiset (Ip × ℕ)) (N : ℕ → Node) (σ' : Sys) (L' : Multiset (Ip × ℕ))
    (N' : ℕ → Node) : Prop where
  files : ∀ f, (σ.ftable f).type ≠ .none → (σ'.ftable f).type ≠ .none → (σ'.ftable f).ip = (σ.ftable f).ip ∧
    ∀ i, ((σ.ftable f).ip, i) ∈ L → ((σ.ftable f).ip, i) ∈ L' ∧ (N' i).type = (N i).type ∧ (N' i).gen = (N i).gen
  dirs : Dirs c N N'

/-- The state after a call. -/
def Done (sb : Superblock) (c : Call) (σ : Sys) (L : Multiset (Ip × ℕ)) (N : ℕ → Node) (σ' : Sys) : Prop :=
  ∃ L' N', SysInv sb σ' L' N' ∧ Moved c σ L N σ' L' N'

section Inv

theorem mem_refs (hm : ip ∈ L.map Prod.fst) : ∃ i, (ip, i) ∈ L := by
  obtain ⟨r, hr, rfl⟩ := Multiset.mem_map.mp hm
  exact ⟨r.2, hr⟩

variable (h : SysInv sb σ L N)

include h

theorem SysInv.file (ht : (σ.ftable f).type ≠ .none) : ∃ i, ((σ.ftable f).ip, i) ∈ L :=
  mem_refs (h.refs ▸ mem_ptrs_file ht)

theorem SysInv.cwd (hp : (σ.procs p).cwd = some ip) : ∃ i, (ip, i) ∈ L :=
  mem_refs (h.refs ▸ mem_ptrs_cwd hp)

/-- The references of the files that stay open are among `L0`, which the call leaves alone. -/
theorem SysInv.moved {L0 : Multiset (Ip × ℕ)} (hle : L0 ≤ L) (hle' : L0 ≤ L')
    (ht : Tame sb.ninodes L0 N N') (hd : Dirs c N N')
    (hf : ∀ f, (σ.ftable f).type ≠ .none → (σ'.ftable f).type ≠ .none →
      (σ'.ftable f).ip = (σ.ftable f).ip ∧ (σ.ftable f).ip ∈ L0.map Prod.fst) : Moved c σ L N σ' L' N' := by
  refine ⟨fun f hopen hopen' => ?_, hd⟩
  obtain ⟨hip, hm⟩ := hf f hopen hopen'
  obtain ⟨j, hj⟩ := mem_refs hm
  have hjL := Multiset.mem_of_le hle hj
  refine ⟨hip, fun i hi => ?_⟩
  obtain rfl := h.tidy.ctx.uniq_inum hi hjL
  exact ⟨Multiset.mem_of_le hle' hj, ht.kept _ hj (h.tidy.alive _ hjL)⟩

/-- A part of the file system proper runs, with the same references before and after. -/
theorem SysInv.call {s' : State} (ht : Tame sb.ninodes L N N') (hc : Ctx sb s' L [] N')
    (hd : Dirs c N N') : Done sb c σ L N { σ with fs := s' } := by
  refine ⟨L, N', ⟨h.tidy.tame ht hc, h.refs, h.idle, fun f hopen hw i hi => ?_⟩,
    h.moved le_rfl le_rfl ht hd fun f hopen _ => ⟨rfl, h.refs ▸ mem_ptrs_file hopen⟩⟩
  rw [(ht.kept _ hi (h.tidy.alive _ hi)).1]
  exact h.ro f hopen hw i hi

/-- The file `f` is used without a change of what it is. -/
theorem SysInv.setFile {ff : File} (ht : ff.type = (σ.ftable f).type) (hip : ff.ip = (σ.ftable f).ip)
    (hw : ff.writable = (σ.ftable f).writable) (href : ff.ref = 0 → (σ.ftable f).ref = 0) :
    SysInv sb { σ with ftable := Function.update σ.ftable f ff } L N := by
  have hptr : ff.ptr = (σ.ftable f).ptr := by rw [File.ptr, File.ptr, ht, hip]
  refine ⟨h.tidy, h.refs.trans (ptrs_setFile_same hptr).symm, fun g hg => ?_, fun g hg hgw i hi => ?_⟩
  · by_cases hgf : g = f
    · subst hgf
      simp only [Function.update_self] at hg ⊢
      rw [ht]
      exact h.idle g (href hg)
    · simp only [Function.update_of_ne hgf] at hg ⊢
      exact h.idle g hg
  · by_cases hgf : g = f
    · subst hgf
      simp only [Function.update_self] at hg hgw hi
      exact h.ro g (ht ▸ hg) (hw ▸ hgw) i (hip ▸ hi)
    · simp only [Function.update_of_ne hgf] at hg hgw hi
      exact h.ro g hg hgw i hi

theorem SysInv.setProc {proc : Proc} (hcwd : proc.cwd = (σ.procs p).cwd) :
    SysInv sb { σ with procs := Function.update σ.procs p proc } L N := by
  refine ⟨h.tidy, h.refs.trans (ptrs_setProc_same ?_).symm, h.idle, h.ro⟩
  rw [Proc.ptr, Proc.ptr, hcwd]

theorem SysInv.setOfile (p : Pid) (fd : Fd) (r : Option FileIx) : SysInv sb
    { σ with procs := Function.update σ.procs p { σ.procs p with ofile := Function.update (σ.procs p).ofile fd r } } L N :=
  h.setProc rfl

/-- A process gets another working directory, or none; the files keep what they point to. -/
theorem SysInv.setCwd {s' : State} {proc : Proc} {L0 : Multiset (Ip × ℕ)} (hle : L0 ≤ L) (hle' : L0 ≤ L')
    (ht : Tame sb.ninodes L0 N N') (hs : Tidy sb s' L' N') (hfiles : filePtrs σ.ftable ≤ L0.map Prod.fst)
    (hrefs : L'.map Prod.fst + (σ.procs p).ptr = L.map Prod.fst + proc.ptr) :
    SysInv sb { σ with fs := s', procs := Function.update σ.procs p proc } L' N' := by
  refine ⟨hs, ?_, h.idle, fun f hf hw i hi => ?_⟩
  · refine add_right_cancel (b := (σ.procs p).ptr) (hrefs.trans ?_)
    rw [h.refs]
    exact ptrs_setProc.symm
  · obtain ⟨j, hj⟩ := mem_refs (Multiset.mem_of_le hfiles (mem_filePtrs hf))
    obtain rfl := hs.ctx.uniq_inum hi (Multiset.mem_of_le hle' hj)
    have hjL := Multiset.mem_of_le hle hj
    rw [(ht.kept _ hj (h.tidy.alive _ hjL)).1]
    exact h.ro f hf hw _ hjL

/-- Nothing has happened to the file system. -/
theorem SysInv.same (h' : SysInv sb σ' L N) (hip : ∀ f, (σ'.ftable f).ip = (σ.ftable f).ip) :
    Done sb c σ L N σ' :=
  ⟨L, N, h', h.moved le_rfl le_rfl .refl Shed.refl.dirs fun f hopen _ => ⟨hip f, h.refs ▸ mem_ptrs_file hopen⟩⟩

end Inv

section Close

/-- References are dropped and files closed, and no more. -/
structure Shrunk (n : ℕ) (σ : Sys) (L : Multiset (Ip × ℕ)) (N : ℕ → Node) (σ' : Sys) (L' : Multiset (Ip × ℕ))
    (N' : ℕ → Node) : Prop where
  le : L' ≤ L
  tame : Tame n L' N N'
  shed : Shed N N'
  files : ∀ f, (σ'.ftable f).type ≠ .none → (σ.ftable f).type ≠ .none ∧ (σ'.ftable f).ip = (σ.ftable f).ip

theorem Shrunk.refl {n : ℕ} : Shrunk n σ L N σ L N := ⟨le_rfl, .refl, .refl, fun _ hf => ⟨hf, rfl⟩⟩

theorem Shrunk.trans {n : ℕ} {σ'' : Sys} {L'' : Multiset (Ip × ℕ)} {N'' : ℕ → Node} (h : Shrunk n σ L N σ' L' N')
    (h' : Shrunk n σ' L' N' σ'' L'' N'') : Shrunk n σ L N σ'' L'' N'' := by
  refine ⟨h'.le.trans h.le, (h.tame.mono h'.le).trans h'.tame, h.shed.trans h'.shed, fun f hf => ?_⟩
  obtain ⟨hf', hip'⟩ := h'.files f hf
  obtain ⟨hf, hip⟩ := h.files f hf'
  exact ⟨hf, hip'.trans hip⟩

theorem Shrunk.done (hs : Shrunk sb.ninodes σ L N σ' L' N') (h : SysInv sb σ L N) (h' : SysInv sb σ' L' N') :
    Done sb c σ L N σ' := by
  refine ⟨L', N', h', h.moved hs.le le_rfl hs.tame hs.shed.dirs fun f _ hopen => ?_⟩
  have hip := (hs.files f hopen).2
  exact ⟨hip, hip ▸ h'.refs ▸ mem_ptrs_file hopen⟩

/-- Dropping the reference `(ip, i)`, in a transaction of its own. -/
theorem Tidy.putInTx {s : State} (h : Tidy sb s ((ip, i) ::ₘ L) N) :
    wp (do beginOp; iput sb ip; endOp) (fun _ s' => Tidy sb s' L (release N L i)) (fun _ => False) s := by
  simp only [wp_bind]
  refine wp_imp h.ctx.beginOp fun _ s1 h1 => ?_
  refine wp_imp (h1.iput fun hk => absurd hk List.not_mem_nil) fun _ s2 h2 => ?_
  refine wp_imp h2.endOp fun _ s3 h3 => ⟨h3, tame_release.range h.range, ?_⟩
  exact (tame_release (n := sb.ninodes)).alive fun r hr => h.alive r (Multiset.mem_cons_of_mem hr)

/-- `f` is closed and what it pointed to is dropped. -/
theorem SysInv.closed {s' : State} (h : SysInv sb σ (((σ.ftable f).ip, i) ::ₘ L) N) (hopen : (σ.ftable f).type ≠ .none)
    (ht : Tame sb.ninodes L N N') (hs : Tidy sb s' L N') : SysInv sb
      { σ with fs := s', ftable := Function.update σ.ftable f { σ.ftable f with ref := 0, type := .none } } L N' := by
  refine ⟨hs, ?_, fun g hg => ?_, fun g hg hw j hj => ?_⟩
  · have hrefs := h.refs
    rw [Multiset.map_cons, ← Multiset.singleton_add, ← ptr_open hopen] at hrefs
    refine add_left_cancel (hrefs.trans ?_)
    rw [add_comm]
    exact (ptrs_setFile.trans (add_zero _)).symm
  · by_cases hgf : g = f
    · rw [hgf]
      simp only [Function.update_self]
    · simp only [Function.update_of_ne hgf] at hg ⊢
      exact h.idle g hg
  · have hgf : g ≠ f := by
      rintro rfl
      simp only [Function.update_self] at hg
      exact hg rfl
    simp only [Function.update_of_ne hgf] at hg hw hj
    have hjL : ((σ.ftable g).ip, j) ∈ ((σ.ftable f).ip, i) ::ₘ L := Multiset.mem_cons_of_mem hj
    rw [(ht.kept _ hj (h.tidy.alive _ hjL)).1]
    exact h.ro g hg hw j hjL

/-- A file that was never opened is given back. -/
theorem SysInv.unused (h : SysInv sb σ L N) (hclosed : (σ.ftable f).type = .none) : SysInv sb
    { σ with ftable := Function.update σ.ftable f { σ.ftable f with ref := 0, type := .none } } L N := by
  refine ⟨h.tidy, h.refs.trans (ptrs_setFile_same ?_).symm, fun g hg => ?_, fun g hg hw i hi => ?_⟩
  · rw [ptr_closed hclosed]
    rfl
  · by_cases hgf : g = f
    · rw [hgf]
      simp only [Function.update_self]
    · simp only [Function.update_of_ne hgf] at hg ⊢
      exact h.idle g hg
  · have hgf : g ≠ f := by
      rintro rfl
      simp only [Function.update_self] at hg
      exact hg rfl
    simp only [Function.update_of_ne hgf] at hg hw hi
    exact h.ro g hg hw i hi

theorem fileclose_spec (h : SysInv sb σ L N) (f : FileIx) :
    wp (fileclose sb f) (fun _ σ' => σ'.procs = σ.procs ∧ ∃ L' N', SysInv sb σ' L' N' ∧ Shrunk sb.ninodes σ L N σ' L' N')
      (fun _ => True) σ := by
  have hfiles : ∀ (ff : File), ff.type = .none ∨ ff.type = (σ.ftable f).type → ff.ip = (σ.ftable f).ip → ∀ g,
      (Function.update σ.ftable f ff g).type ≠ .none →
      (σ.ftable g).type ≠ .none ∧ (Function.update σ.ftable f ff g).ip = (σ.ftable g).ip := fun ff ht hip g hg => by
    by_cases hgf : g = f
    · subst hgf
      rw [Function.update_self] at hg ⊢
      exact ⟨(ht.resolve_left hg) ▸ hg, hip⟩
    · rw [Function.update_of_ne hgf] at hg ⊢
      exact ⟨hg, rfl⟩
  simp only [fileclose, wp_bind, wp_getFile, wp_ite, wp_throw, wp_setFile, wp_pure]
  refine ⟨fun _ => trivial, fun href => ⟨fun hmore => ⟨trivial, L, N, h.setFile rfl rfl rfl fun h0 => ?_, ?_⟩,
    fun _ => ⟨fun hopen => ?_, fun hclosed => ?_⟩⟩⟩
  · exact absurd h0 (by change (σ.ftable f).ref - 1 ≠ 0; omega)
  · exact ⟨le_rfl, .refl, .refl, hfiles _ (.inr rfl) rfl⟩
  · have hopen : (σ.ftable f).type ≠ .none := by
      rcases hopen with ho | ho <;> (rw [ho]; simp)
    obtain ⟨i, hi⟩ := h.file hopen
    obtain ⟨L0, rfl⟩ := Multiset.exists_cons_of_mem hi
    have hput : wp (do beginOp; iput sb (σ.ftable f).ip; endOp) (fun _ s' => ∃ L' N',
        SysInv sb { σ with fs := s', ftable := Function.update σ.ftable f { σ.ftable f with ref := 0, type := .none } } L' N' ∧
        Shrunk sb.ninodes σ (((σ.ftable f).ip, i) ::ₘ L0) N
          { σ with fs := s', ftable := Function.update σ.ftable f { σ.ftable f with ref := 0, type := .none } } L' N')
        (fun _ => True) σ.fs :=
      wp_imp h.tidy.putInTx fun _ s1 h1 => ⟨L0, _, h.closed hopen tame_release h1, Multiset.le_cons_self L0 _, tame_release,
        shed_release, hfiles _ (.inl rfl) rfl⟩
    simpa only [wp_bind, wp_liftFs, true_and] using hput
  · have hclosed : (σ.ftable f).type = .none := by
      cases ht : (σ.ftable f).type <;> simp [ht] at hclosed ⊢
    exact ⟨trivial, L, N, h.unused hclosed, le_rfl, .refl, .refl, hfiles _ (.inl rfl) rfl⟩

theorem wp_argfd {fd : ℤ} {Q : Option (Fd × FileIx) → Sys → Prop} {E : Stop → Prop} (h : ∀ r, Q r σ) :
    wp (argfd p fd) Q E σ := by
  simp only [argfd, wp_bind, wp_getProc]
  split_ifs
  · split
    · exact h _
    · exact h _
  · exact h _

theorem sysClose_done (h : SysInv sb σ L N) (p : Pid) (fd : ℤ) :
    wp (sysClose sb p fd) (fun _ σ' => Done sb c σ L N σ') (fun _ => True) σ := by
  rw [sysClose, wp_bind]
  refine wp_argfd fun r => ?_
  cases r with
  | none => exact h.same h fun _ => rfl
  | some r =>
    simp only [setOfile, wp_bind, wp_getProc, wp_setProc, wp_pure]
    refine wp_mono (fileclose_spec (h.setOfile p r.1 none) r.2) (fun _ σ' h' => ?_) fun _ => id
    obtain ⟨-, L', N', h', hs⟩ := h'
    have hs : Shrunk sb.ninodes σ L N σ' L' N' := ⟨hs.le, hs.tame, hs.shed, hs.files⟩
    exact hs.done h h'

/-- What is left while a process exits. -/
def Exiting (sb : Superblock) (σ : Sys) (L : Multiset (Ip × ℕ)) (N : ℕ → Node) (σ' : Sys) : Prop :=
  (∀ q, (σ'.procs q).cwd = (σ.procs q).cwd) ∧ ∃ L' N', SysInv sb σ' L' N' ∧ Shrunk sb.ninodes σ L N σ' L' N'

theorem cwd_setOfile (q : Pid) {fd : Fd} {r : Option FileIx} :
    (Function.update σ.procs p { σ.procs p with ofile := Function.update (σ.procs p).ofile fd r } q).cwd = (σ.procs q).cwd := by
  by_cases hq : q = p
  · rw [hq, Function.update_self]
  · rw [Function.update_of_ne hq]

theorem exitClose_spec {σ0 : Sys} (h : Exiting sb σ0 L N σ) (p : Pid) (fd : Fd) :
    wp (exitClose sb p fd) (fun _ σ' => Exiting sb σ0 L N σ') (fun _ => True) σ := by
  obtain ⟨hcwd, L1, N1, h1, hs1⟩ := h
  simp only [exitClose, wp_bind, wp_getProc]
  cases (σ.procs p).ofile fd with
  | none => exact ⟨hcwd, L1, N1, h1, hs1⟩
  | some f =>
    simp only [setOfile, wp_bind, wp_getProc, wp_setProc]
    refine wp_mono (fileclose_spec h1 f) (fun _ σ2 h2 => ?_) fun _ => id
    obtain ⟨hprocs, L2, N2, h2, hs2⟩ := h2
    have hs := hs1.trans hs2
    refine ⟨fun q => ?_, L2, N2, h2.setProc rfl, hs.le, hs.tame, hs.shed, hs.files⟩
    rw [cwd_setOfile, hprocs]
    exact hcwd q

theorem kexit_done (h : SysInv sb σ L N) (hp : (σ.procs p).cwd = some cp) :
    wp (kexit sb p cp) (fun _ σ' => Done sb c σ L N σ') (fun _ => True) σ := by
  rw [kexit, wp_ite]
  refine ⟨fun _ => trivial, fun _ => ?_⟩
  rw [wp_bind]
  refine wp_mono (wp_repeatFrom (fun _ σ' => Exiting sb σ L N σ') ⟨fun _ => rfl, L, N, h, .refl⟩
    fun k σ1 _ _ h1 => exitClose_spec h1 p _) (fun _ σ1 h1 => ?_) fun _ => id
  obtain ⟨hcwd, L1, N1, h1, hs1⟩ := h1
  have hp1 : (σ1.procs p).cwd = some cp := (hcwd p).trans hp
  obtain ⟨i, hi⟩ := h1.cwd hp1
  obtain ⟨L0, rfl⟩ := Multiset.exists_cons_of_mem hi
  have hput : wp (do beginOp; iput sb cp; endOp) (fun _ s' => Done sb c σ L N
      { σ1 with fs := s', procs := Function.update σ1.procs p { σ1.procs p with cwd := none } }) (fun _ => True) σ1.fs := by
    refine wp_imp h1.tidy.putInTx fun _ s2 h2 => ?_
    have hfiles : filePtrs σ1.ftable ≤ L0.map Prod.fst := filePtrs_le hp1 (by rw [← h1.refs, Multiset.map_cons])
    have hle : L0 ≤ (cp, i) ::ₘ L0 := Multiset.le_cons_self L0 _
    have hrefs : L0.map Prod.fst + (σ1.procs p).ptr =
        ((cp, i) ::ₘ L0).map Prod.fst + Proc.ptr { σ1.procs p with cwd := none } := by
      rw [ptr_cwd hp1, ptr_exited rfl, Multiset.map_cons, add_zero, add_comm, Multiset.singleton_add]
    refine Shrunk.done (hs1.trans ?_) h (h1.setCwd hle le_rfl tame_release h2 hfiles hrefs)
    exact ⟨hle, tame_release, shed_release, fun _ hf => ⟨hf, rfl⟩⟩
  simpa only [wp_bind, wp_liftFs, wp_getProc, wp_setProc, wp_pure] using hput

end Close

section Share

theorem filedup_inv (h : SysInv sb σ L N) (f : FileIx) :
    wp (filedup f) (fun r σ' => r = f ∧ σ'.procs = σ.procs ∧ (∀ g, (σ'.ftable g).ip = (σ.ftable g).ip) ∧ SysInv sb σ' L N)
      (fun _ => True) σ := by
  simp only [filedup, wp_bind, wp_getFile, wp_ite, wp_throw, wp_setFile, wp_pure]
  refine ⟨fun _ => trivial, fun _ => ⟨trivial, trivial, fun g => ?_, h.setFile rfl rfl rfl fun h0 => by cases h0⟩⟩
  by_cases hg : g = f
  · rw [hg, Function.update_self]
  · rw [Function.update_of_ne hg]

theorem fdalloc_spec (p : Pid) (f : FileIx) : wp (fdalloc p f) (fun r σ' => (r = none ∧ σ' = σ) ∨ ∃ fd, r = some fd ∧
    σ' = { σ with procs := Function.update σ.procs p { σ.procs p with ofile := Function.update (σ.procs p).ofile fd (some f) } })
    (fun _ => False) σ := by
  simp only [fdalloc, wp_bind, wp_getProc]
  split
  · exact .inr ⟨_, rfl, rfl⟩
  · exact .inl ⟨rfl, rfl⟩

theorem sysDup_done (h : SysInv sb σ L N) (p : Pid) (fd : ℤ) :
    wp (sysDup p fd) (fun _ σ' => Done sb c σ L N σ') (fun _ => True) σ := by
  rw [sysDup, wp_bind]
  refine wp_argfd fun r => ?_
  cases r with
  | none => exact h.same h fun _ => rfl
  | some r =>
    rw [wp_bind]
    refine wp_imp (fdalloc_spec p r.2) fun r' σ1 h1 => ?_
    rcases h1 with ⟨rfl, rfl⟩ | ⟨fd', rfl, rfl⟩
    · exact h.same h fun _ => rfl
    · simp only [wp_bind, wp_pure]
      refine wp_mono (filedup_inv (h.setOfile p fd' (some r.2)) r.2) (fun _ σ2 h2 => ?_) fun _ => id
      obtain ⟨-, -, hip, h2⟩ := h2
      exact h.same h2 hip

/-- What is left while a process forks. -/
structure Forking (sb : Superblock) (σ : Sys) (L : Multiset (Ip × ℕ)) (N : ℕ → Node) (σ' : Sys) : Prop where
  cwd : ∀ q, (σ'.procs q).cwd = (σ.procs q).cwd
  files : ∀ f, (σ'.ftable f).ip = (σ.ftable f).ip
  inv : SysInv sb σ' L N

theorem forkFile_spec {σ0 : Sys} (h : Forking sb σ0 L N σ) (p np : Pid) (fd : Fd) :
    wp (forkFile p np fd) (fun _ σ' => Forking sb σ0 L N σ') (fun _ => True) σ := by
  simp only [forkFile, wp_bind, wp_getProc]
  cases (σ.procs p).ofile fd with
  | none => exact h
  | some f =>
    simp only [setOfile, wp_bind, wp_getProc, wp_setProc]
    refine wp_mono (filedup_inv h.inv f) (fun r σ1 h1 => ?_) fun _ => id
    obtain ⟨-, hprocs, hip, h1⟩ := h1
    refine ⟨fun q => ?_, fun g => (hip g).trans (h.files g), h1.setOfile _ _ _⟩
    rw [cwd_setOfile, hprocs]
    exact h.cwd q

theorem kfork_done {np : Pid} (h : SysInv sb σ L N) (hp : (σ.procs p).cwd = some cp) (hnp : (σ.procs np).cwd = none) :
    wp (kfork p np cp) (fun _ σ' => Done sb c σ L N σ') (fun _ => True) σ := by
  rw [kfork, wp_bind]
  refine wp_mono (wp_repeatFrom (fun _ σ' => Forking sb σ L N σ') ⟨fun _ => rfl, fun _ => rfl, h⟩
    fun k σ1 _ _ h1 => forkFile_spec h1 p np _) (fun _ σ1 h1 => ?_) fun _ => id
  obtain ⟨i, hi⟩ := h.cwd hp
  simp only [wp_bind, wp_liftFs, wp_getProc, wp_setProc]
  refine wp_imp (h1.inv.tidy.ctx.idup hi) fun r s2 h2 => ?_
  obtain ⟨rfl, h2⟩ := h2
  have ht2 : Tidy sb s2 ((r, i) ::ₘ L) N :=
    ⟨h2, h.tidy.range, Multiset.forall_mem_cons.mpr ⟨h.tidy.alive _ hi, h.tidy.alive⟩⟩
  have hnp1 : (σ1.procs np).cwd = none := (h1.cwd np).trans hnp
  have hfiles : filePtrs σ1.ftable ≤ L.map Prod.fst := by
    rw [h1.inv.refs]
    exact Multiset.le_add_right _ _
  have hrefs : ((r, i) ::ₘ L).map Prod.fst + (σ1.procs np).ptr =
      L.map Prod.fst + Proc.ptr { σ1.procs np with cwd := some r } := by
    rw [ptr_exited hnp1, ptr_cwd rfl, Multiset.map_cons, add_zero, add_comm, Multiset.singleton_add]
  have hle : L ≤ (r, i) ::ₘ L := Multiset.le_cons_self L _
  refine ⟨_, N, h1.inv.setCwd le_rfl hle .refl ht2 hfiles hrefs, h.moved le_rfl hle .refl Shed.refl.dirs fun f hopen _ => ?_⟩
  exact ⟨h1.files f, h.refs ▸ mem_ptrs_file hopen⟩

end Share

section Use

variable {s' : State} {off : UInt32}

/-- The state after `f` was read or written. -/
def Sys.used (σ : Sys) (f : FileIx) (s' : State) (off : UInt32) : Sys :=
  { σ with fs := s', ftable := Function.update σ.ftable f { σ.ftable f with off := off } }

theorem used_self (s' : State) : σ.used f s' (σ.ftable f).off = { σ with fs := s' } := by
  rw [Sys.used, Function.update_eq_self]

theorem used_file : (σ.used f s' off).ftable f = { σ.ftable f with off := off } := Function.update_self ..

theorem used_used {s'' : State} {off' : UInt32} : (σ.used f s' off).used f s'' off' = σ.used f s'' off' := by
  rw [Sys.used, used_file]
  simp only [Sys.used, Function.update_idem]

theorem SysInv.used (h : SysInv sb σ L N) (hs : Tidy sb s' L N) (f : FileIx) (off : UInt32) : Done sb c σ L N (σ.used f s' off) := by
  have h1 : SysInv sb { σ with ftable := Function.update σ.ftable f { σ.ftable f with off := off } } L N :=
    h.setFile rfl rfl rfl id
  refine h.same ⟨hs, h1.refs, h1.idle, h1.ro⟩ fun g => ?_
  by_cases hg : g = f
  · rw [hg, used_file]
  · exact congrArg File.ip (Function.update_of_ne hg _ _)

/-- The file system is tidy after a use of `f`, and has not been written to if `quiet` is set. -/
def UsedUp (sb : Superblock) (σ : Sys) (f : FileIx) (L : Multiset (Ip × ℕ)) (N : ℕ → Node) (quiet : Prop) (σ' : Sys) : Prop :=
  ∃ s' off, σ' = σ.used f s' off ∧ Tidy sb s' L N ∧ (quiet → s'.disk = σ.fs.disk ∧ s'.logged = σ.fs.logged)

theorem UsedUp.done {quiet : Prop} (hu : UsedUp sb σ f L N quiet σ') (h : SysInv sb σ L N) : Done sb c σ L N σ' := by
  obtain ⟨s', off, rfl, hs, -⟩ := hu
  exact h.used hs f off

/-- Nothing was used after all. -/
theorem usedUp_refl (h : Tidy sb σ.fs L N) (quiet : Prop) : UsedUp sb σ f L N quiet σ :=
  ⟨σ.fs, (σ.ftable f).off, (used_self σ.fs).symm, h, fun _ => ⟨rfl, rfl⟩⟩

/-- The lock of the file's inode is given back, with a new offset or the old one. -/
theorem unlock_used {s : State} (h : Tidy sb σ.fs L N) (hr : ((σ.ftable f).ip, i) ∈ L) (hc : Ctx sb s L [(σ.ftable f).ip] N)
    (off : UInt32) {quiet : Prop} (hquiet : quiet → s.disk = σ.fs.disk ∧ s.logged = σ.fs.logged) :
    wp (liftFs (iunlock (σ.ftable f).ip)) (fun _ σ' => UsedUp sb σ f L N quiet σ') (fun _ => False) (σ.used f s off) := by
  rw [wp_liftFs]
  refine wp_mono (wp_and (iunlock_spec (hc.at hr).1 ((hc.lock _).mpr List.mem_cons_self)) (hc.iunlock hr List.not_mem_nil))
    (fun _ s1 h1 => ?_) fun _ he => he.1
  obtain ⟨rfl, h1⟩ := h1
  exact ⟨_, off, rfl, ⟨h1, h.range, h.alive⟩, hquiet⟩

theorem fileread_spec (h : Tidy sb σ.fs L N) (hr : (σ.ftable f).type ≠ .none → ((σ.ftable f).ip, i) ∈ L) (dst : Dst) (n : UInt32)
    (got : ℤ) : wp (fileread sb f dst n got) (fun _ σ' => UsedUp sb σ f L N True σ') (fun _ => (σ.ftable f).type = .none) σ := by
  have hrefl := usedUp_refl (f := f) h True
  simp only [fileread, wp_bind, wp_getFile]
  rw [wp_ite]
  refine ⟨fun _ => hrefl, fun _ => ?_⟩
  split
  · rw [wp_ite]
    exact ⟨fun _ => hrefl, fun _ => hrefl⟩
  · rename_i htype
    have hr := hr (by rw [htype]; simp)
    simp only [wp_bind, wp_liftFs]
    refine wp_imp (h.lock hr) fun _ s1 h1 => ?_
    obtain ⟨rfl, h1⟩ := h1
    refine wp_imp (h1.readi_same hr List.mem_cons_self dst _ n) fun r s2 h2 => ?_
    subst h2
    by_cases hpos : 0 < r.1
    · simp only [if_pos hpos, wp_bind, wp_setFile, wp_pure]
      exact wp_imp (unlock_used h hr h1 _ fun _ => ⟨rfl, rfl⟩) fun _ _ => id
    · simp only [if_neg hpos, wp_bind, wp_pure]
      rw [← used_self]
      exact wp_imp (unlock_used h hr h1 _ fun _ => ⟨rfl, rfl⟩) fun _ _ => id
  · assumption

theorem filestat_spec (h : Tidy sb σ.fs L N) (hr : (σ.ftable f).type ≠ .none → ((σ.ftable f).ip, i) ∈ L) (mapped : Bool) :
    wp (filestat sb f mapped) (fun _ σ' => UsedUp sb σ f L N True σ') (fun _ => False) σ := by
  simp only [filestat, wp_bind, wp_getFile]
  rw [wp_ite]
  refine ⟨fun hopen => ?_, fun _ => usedUp_refl h True⟩
  have hr := hr (by rcases hopen with ho | ho <;> (rw [ho]; simp))
  simp only [wp_bind]
  rw [wp_liftFs]
  refine wp_imp (h.lock hr) fun _ s1 h1 => ?_
  obtain ⟨rfl, h1⟩ := h1
  rw [wp_liftFs]
  simp only [getInode, wp_bind, wp_get, wp_pure]
  rw [← used_self]
  exact wp_imp (unlock_used h hr h1 _ fun _ => ⟨rfl, rfl⟩) fun _ _ => id

theorem filewriteFrom_spec (h : Tidy sb σ.fs L N) (hr : ((σ.ftable f).ip, i) ∈ L) (hfile : (N i).type ≠ T_DIR) (src : Src)
    (n k j : ℕ) : wp (filewriteFrom sb f src n k j) (fun _ σ' => UsedUp sb σ f L N False σ') (fun _ => False) σ := by
  induction k generalizing σ j with
  | zero => exact usedUp_refl h False
  | succ k ih =>
    rw [filewriteFrom, wp_ite]
    refine ⟨fun _ => ?_, fun _ => usedUp_refl h False⟩
    simp only [wp_bind]
    rw [wp_liftFs]
    refine wp_imp h.ctx.beginOp fun _ s1 h1 => ?_
    rw [wp_getFile, wp_liftFs]
    have ht1 : Tidy sb s1 L N := ⟨h1, h.range, h.alive⟩
    refine wp_imp (ht1.lock hr) fun _ s2 h2 => ?_
    rw [wp_liftFs]
    refine wp_imp (h2.2.writeFile hr List.mem_cons_self hfile _ _ _) fun r s3 h3 => ?_
    -- the rest of the pass, whatever the offset is
    have hrest : ∀ off, wp (do
        liftFs (iunlock (σ.ftable f).ip)
        liftFs endOp
        if r ≠ (min (n - j) maxWrite : ℕ) then return j
        else filewriteFrom sb f src n k (j + min (n - j) maxWrite)) (fun _ σ' => UsedUp sb σ f L N False σ') (fun _ => False)
          (σ.used f s3 off) := fun off => by
      rw [wp_bind]
      refine wp_imp (unlock_used h hr h3 off False.elim) fun _ σ4 h4 => ?_
      obtain ⟨s4, off4, rfl, h4, -⟩ := h4
      rw [wp_bind, wp_liftFs]
      refine wp_imp h4.ctx.endOp fun _ s5 h5 => ?_
      have h5 : Tidy sb s5 L N := ⟨h5, h.range, h.alive⟩
      rw [wp_ite]
      refine ⟨fun _ => ⟨s5, off4, rfl, h5, False.elim⟩, fun _ => ?_⟩
      have hr5 : (((σ.used f s5 off4).ftable f).ip, i) ∈ L := by
        rw [used_file]
        exact hr
      refine wp_imp (ih h5 hr5 _) fun _ σ6 h6 => ?_
      obtain ⟨s6, off6, rfl, h6, -⟩ := h6
      exact ⟨s6, off6, used_used, h6, False.elim⟩
    by_cases hpos : 0 < r
    · simp only [if_pos hpos, wp_bind, wp_setFile]
      simpa only [wp_bind, Sys.used] using hrest _
    · simp only [if_neg hpos]
      have := hrest (σ.ftable f).off
      rw [used_self] at this
      simpa only [wp_bind] using this

/-- The inode of a file, if the file is open. -/
theorem SysInv.fileInum (h : SysInv sb σ L N) (f : FileIx) : ∃ i, (σ.ftable f).type ≠ .none → ((σ.ftable f).ip, i) ∈ L := by
  by_cases ht : (σ.ftable f).type = .none
  · exact ⟨0, absurd ht⟩
  · obtain ⟨i, hi⟩ := h.file ht
    exact ⟨i, fun _ => hi⟩

theorem sysRead_done (h : SysInv sb σ L N) (p : Pid) (fd : ℤ) (dst : Dst) (n : UInt32) (got : ℤ) :
    wp (sysRead sb p fd dst n got) (fun _ σ' => Done sb c σ L N σ') (fun _ => True) σ := by
  rw [sysRead, wp_bind]
  refine wp_argfd fun r => ?_
  cases r with
  | none => exact h.same h fun _ => rfl
  | some r =>
    obtain ⟨i, hi⟩ := h.fileInum r.2
    exact wp_mono (fileread_spec h.tidy hi dst n got) (fun _ _ hu => hu.done h) fun _ _ => trivial

theorem sysFstat_done (h : SysInv sb σ L N) (p : Pid) (fd : ℤ) (mapped : Bool) :
    wp (sysFstat sb p fd mapped) (fun _ σ' => Done sb c σ L N σ') (fun _ => True) σ := by
  rw [sysFstat, wp_bind]
  refine wp_argfd fun r => ?_
  cases r with
  | none => exact h.same h fun _ => rfl
  | some r =>
    obtain ⟨i, hi⟩ := h.fileInum r.2
    exact wp_imp (filestat_spec h.tidy hi mapped) fun _ _ hu => hu.done h

theorem sysWrite_done (h : SysInv sb σ L N) (p : Pid) (fd : ℤ) (mem : ℕ → Option UInt8) (n : ℤ) :
    wp (sysWrite sb p fd mem n) (fun _ σ' => Done sb c σ L N σ') (fun _ => True) σ := by
  have hsame : Done sb c σ L N σ := h.same h fun _ => rfl
  rw [sysWrite, wp_bind]
  refine wp_argfd fun r => ?_
  cases r with
  | none => exact hsame
  | some r =>
    simp only [filewrite, wp_bind, wp_getFile]
    rw [wp_ite]
    refine ⟨fun _ => hsame, fun hw => ?_⟩
    have hw : (σ.ftable r.2).writable = true := by simpa using hw
    split
    · rw [wp_ite]
      exact ⟨fun _ => hsame, fun _ => hsame⟩
    · rename_i htype
      have ht : (σ.ftable r.2).type ≠ .none := by
        rw [htype]
        simp
      obtain ⟨i, hi⟩ := h.file ht
      simp only [wp_bind, wp_pure]
      exact wp_imp (filewriteFrom_spec h.tidy hi (h.ro _ ht hw i hi) _ _ _ _) fun _ _ hu => hu.done h
    · trivial

end Use

section Fs

theorem mknodType_done (h : SysInv sb σ L N) (hr : Ready sb L N cp i) {type major minor : Int16} (hc : c.Links)
    (htype : type = T_DIR ∨ type = T_DEVICE) (path : Option (List UInt8)) :
    wp (liftFs (mknodType sb cp path type major minor)) (fun _ σ' => Done sb c σ L N σ') (fun _ => True) σ := by
  rw [wp_liftFs]
  refine wp_mono (mknodType_spec h.tidy.ctx hr htype path) (fun r s' hm => ?_) fun _ _ => trivial
  cases hm with
  | failed hN hs => exact h.call (tame_unmade hN) hs (shed_unmade hN).dirs
  | made hp hw hv hs =>
    exact h.call ((tame_new h.tidy.ctx.inv.wf hv).trans tame_release) hs (((dirs_made hc hv).shed shed_release).shed shed_release)

theorem sysLink_done (h : SysInv sb σ L N) (hr : Ready sb L N cp i) (hc : c.Links) (old new : Option (List UInt8)) :
    wp (liftFs (sysLink sb cp old new)) (fun _ σ' => Done sb c σ L N σ') (fun _ => True) σ := by
  rw [wp_liftFs]
  refine wp_mono (sysLink_spec h.tidy.ctx hr old new) (fun r s' hm => ?_) fun _ _ => trivial
  cases hm with
  | failed hs => exact h.call .refl hs Shed.refl.dirs
  | @linked p q name j d k hold hnew hi hfile hlt hw hf hs =>
    have hj : (UInt16.ofNat j).toNat < sb.ninodes := by
      rw [toNat_inum h.tidy.ctx.inv.wf hlt]
      exact hlt
    exact h.call (((tame_relink 1).trans (tame_putEnt hj)).trans tame_release) hs (dirs_linked hc hf)

theorem sysUnlink_done (h : SysInv sb σ L N) (hr : Ready sb L N cp i) (hc : c.Unlinks) (path : Option (List UInt8)) :
    wp (liftFs (sysUnlink sb cp path)) (fun _ σ' => Done sb c σ L N σ') (fun _ => True) σ := by
  rw [wp_liftFs]
  refine wp_mono (sysUnlink_spec h.tidy.ctx hr path) (fun r s' hm => ?_) fun _ _ => trivial
  cases hm with
  | failed hs => exact h.call .refl hs Shed.refl.dirs
  | done hp hw hdots hrem hs =>
    exact h.call (tame_unlinked (Nat.zero_lt_of_lt hr.root)) hs (dirs_unlinked hc)

section Exec

variable {s : State} (hread : ∀ dst off n, wp (readi sb ip dst off n) (fun _ s' => s' = s) (fun _ => False) s)

include hread

/-- Loading a program changes nothing in the file system. -/
theorem loadseg_same (page : ℕ → Bool) (offset sz : UInt32) :
    wp (loadseg sb ip page offset sz) (fun _ s' => s' = s) (fun _ => True) s := by
  have hfrom : ∀ k i, wp (loadsegFrom sb ip page offset sz k i) (fun _ s' => s' = s) (fun _ => True) s := by
    intro k
    induction k with
    | zero => exact fun i => rfl
    | succ k ih =>
      intro i
      rw [loadsegFrom, wp_ite]
      refine ⟨fun _ => ?_, fun _ => rfl⟩
      rw [wp_ite]
      refine ⟨fun _ => trivial, fun _ => ?_⟩
      rw [wp_bind]
      refine wp_imp (hread _ _ _) fun r s1 h1 => ?_
      subst h1
      rw [wp_ite]
      exact ⟨fun _ => rfl, fun _ => ih _⟩
  exact hfrom _ _

theorem loadHeaders_same (mem : ExecMem) (n k : ℕ) (off : UInt32) :
    wp (loadHeaders sb ip mem n k off) (fun _ s' => s' = s) (fun _ => True) s := by
  induction n generalizing k off with
  | zero => exact rfl
  | succ n ih =>
    rw [loadHeaders, wp_bind]
    refine wp_imp (hread _ _ _) fun r s1 h1 => ?_
    subst h1
    simp only [wp_ite, wp_pure, wp_bind, implies_true, true_and]
    refine fun _ => ⟨fun _ => ih _ _, fun _ _ _ _ _ => ?_⟩
    refine wp_mono (loadseg_same hread _ _ _) (fun ok s2 h2 => ?_) fun _ => id
    subst h2
    exact ⟨fun _ => ih _ _, fun _ => rfl⟩

theorem loadImage_same (mem : ExecMem) : wp (loadImage sb ip mem) (fun _ s' => s' = s) (fun _ => True) s := by
  rw [loadImage, wp_bind]
  refine wp_imp (hread _ _ _) fun r s1 h1 => ?_
  subst h1
  simp only [wp_ite, wp_pure, implies_true, true_and]
  exact fun _ _ _ => loadHeaders_same hread _ _ _ _

end Exec

theorem sysExec_done (h : SysInv sb σ L N) (hr : Ready sb L N cp i) (path : Option (List UInt8)) (mem : ExecMem) :
    wp (liftFs (sysExec sb cp path mem)) (fun _ σ' => Done sb c σ L N σ') (fun _ => True) σ := by
  rw [wp_liftFs, sysExec]
  have hsame : Done sb c σ L N σ := h.same h fun _ => rfl
  cases argstr path with
  | none => exact hsame
  | some path =>
    simp only
    rw [wp_ite]
    refine ⟨fun _ => ?_, fun _ => hsame⟩
    rw [kexec, wp_bind]
    refine wp_imp h.tidy.ctx.beginOp fun _ s1 h1 => ?_
    rw [wp_bind]
    refine wp_mono (namei_spec h1 hr path) (fun r s2 h2 => ?_) fun _ _ => trivial
    rcases h2 with ⟨rfl, h2⟩ | ⟨jp, j, rfl, -, h2⟩
    · simp only [wp_bind, wp_pure]
      exact wp_imp h2.endOp fun _ s3 h3 => h.call .refl h3 Shed.refl.dirs
    have hmem := Multiset.mem_cons_self (jp, j) L
    simp only [wp_bind, wp_pure]
    refine wp_mono (h2.ilock hmem List.not_mem_nil) (fun _ s3 h3 => ?_) fun _ _ => trivial
    refine wp_mono (loadImage_same (fun dst off n => h3.2.readi_same hmem List.mem_cons_self dst off n) mem)
      (fun ok s4 h4 => ?_) fun _ => id
    subst h4
    refine wp_imp (h3.2.iunlockput List.not_mem_nil) fun _ s5 h5 => ?_
    exact wp_imp h5.endOp fun _ s6 h6 => h.call tame_release h6 shed_release.dirs

theorem sysChdir_done (h : SysInv sb σ L N) (hp : (σ.procs p).cwd = some cp) (hr : Ready sb L N cp i) (path : Option (List UInt8)) :
    wp (sysChdir sb p cp path) (fun _ σ' => Done sb c σ L N σ') (fun _ => True) σ := by
  rw [sysChdir, wp_bind, wp_liftFs]
  refine wp_imp h.tidy.ctx.beginOp fun _ s1 h1 => ?_
  have hfail : ∀ {N' : ℕ → Node} {s : State}, Tame sb.ninodes L N N' → Shed N N' → Ctx sb s L [] N' →
      wp (do liftFs endOp; return (-1 : ℤ)) (fun _ σ' => Done sb c σ L N σ') (fun _ => True) { σ with fs := s } := by
    intro N' s ht hs hc
    rw [wp_bind, wp_liftFs]
    exact wp_imp hc.endOp fun _ s' hs' => h.call ht hs' hs.dirs
  cases argstr path with
  | none => exact hfail .refl .refl h1
  | some path =>
    simp only [wp_bind, wp_liftFs]
    refine wp_mono (namei_spec h1 hr path) (fun r s2 h2 => ?_) fun _ _ => trivial
    rcases h2 with ⟨rfl, h2⟩ | ⟨jp, j, rfl, -, h2⟩
    · exact hfail .refl .refl h2
    have hmem := Multiset.mem_cons_self (jp, j) L
    simp only [wp_bind, wp_liftFs]
    refine wp_mono (h2.ilock hmem List.not_mem_nil) (fun _ s3 h3 => ?_) fun _ _ => trivial
    obtain ⟨htj, h3⟩ := h3
    have hent := h3.entry hmem List.mem_cons_self
    simp only [getInode, wp_bind, wp_get, wp_pure]
    rw [wp_ite]
    refine ⟨fun _ => ?_, fun hdir => ?_⟩
    · simp only [wp_bind, wp_liftFs]
      refine wp_imp (h3.iunlockput List.not_mem_nil) fun _ s4 h4 => ?_
      exact hfail tame_release shed_release h4
    · simp only [wp_bind, wp_liftFs, wp_getProc, wp_setProc, wp_pure]
      refine wp_imp (h3.iunlock hmem List.not_mem_nil) fun _ s4 h4 => ?_
      obtain ⟨L0, rfl⟩ := Multiset.exists_cons_of_mem hr.cwd
      rw [Multiset.cons_swap] at h4
      refine wp_imp (h4.iput fun hk => absurd hk List.not_mem_nil) fun _ s5 h5 => ?_
      refine wp_imp h5.endOp fun _ s6 h6 => ?_
      have hle : L0 ≤ (cp, i) ::ₘ L0 := Multiset.le_cons_self L0 _
      have hle' : L0 ≤ (jp, j) ::ₘ L0 := Multiset.le_cons_self L0 _
      have ht : Tame sb.ninodes ((jp, j) ::ₘ L0) N (release N ((jp, j) ::ₘ L0) i) := tame_release
      have hs : Tidy sb s6 ((jp, j) ::ₘ L0) (release N ((jp, j) ::ₘ L0) i) := by
        refine ⟨h6, ht.range h.tidy.range, ht.alive (Multiset.forall_mem_cons.mpr ⟨htj, fun r hr => ?_⟩)⟩
        exact h.tidy.alive r (Multiset.mem_cons_of_mem hr)
      have hfiles : filePtrs σ.ftable ≤ L0.map Prod.fst := filePtrs_le hp (by rw [← h.refs, Multiset.map_cons])
      have hrefs : ((jp, j) ::ₘ L0).map Prod.fst + (σ.procs p).ptr =
          ((cp, i) ::ₘ L0).map Prod.fst + Proc.ptr { σ.procs p with cwd := some jp } := by
        rw [ptr_cwd hp, ptr_cwd rfl, Multiset.map_cons, Multiset.map_cons, ← Multiset.singleton_add, ← Multiset.singleton_add]
        abel
      refine ⟨_, _, h.setCwd hle hle' (ht.mono hle') hs hfiles hrefs, h.moved hle hle' (ht.mono hle') shed_release.dirs
        fun f hf _ => ⟨rfl, Multiset.mem_of_le hfiles (mem_filePtrs hf)⟩⟩

end Fs

section Open

theorem Done.of_files {σ0 : Sys} (h : Done sb c σ L N σ') (hf : ∀ f, (σ0.ftable f).type ≠ .none → σ.ftable f = σ0.ftable f) :
    Done sb c σ0 L N σ' := by
  obtain ⟨L', N', hinv, hm⟩ := h
  refine ⟨L', N', hinv, fun f hopen hopen' => ?_, hm.dirs⟩
  have hsame := hf f hopen
  rw [← hsame]
  exact hm.files f (by rwa [hsame]) hopen'

/-- The inode that `open` goes on with: allocated, and a directory only if it is opened for reading. -/
def Openable (sb : Superblock) (c : Call) (L : Multiset (Ip × ℕ)) (N : ℕ → Node) (omode : UInt32) (ip : Ip) (s' : State) : Prop :=
  ∃ i N', Tame sb.ninodes L N N' ∧ Dirs c N N' ∧ Ctx sb s' ((ip, i) ::ₘ L) [ip] N' ∧ ((N' i).type = T_DIR → omode = O_RDONLY)

theorem openInode_spec {s : State} {path : List UInt8} {omode : UInt32} (h : Ctx sb s L [] N) (hr : Ready sb L N cp i)
    (hc : isSet omode O_CREATE = true → c.Links) :
    wp (openInode sb cp path omode) (fun r s' => match r with
      | none => ∃ N', Tame sb.ninodes L N N' ∧ Dirs c N N' ∧ Ctx sb s' L [] N'
      | some ip => Openable sb c L N omode ip s') (fun _ => True) s := by
  rw [openInode, wp_ite]
  refine ⟨fun hset => ?_, fun _ => ?_⟩
  · refine wp_mono (create_spec h hr (by decide) path) (fun r s1 h1 => ?_) fun _ _ => trivial
    cases h1 with
    | failed hN h1 => exact ⟨_, tame_unmade hN, (shed_unmade hN).dirs, h1⟩
    | @found jp j _ hj _ h1 =>
      refine ⟨j, N, .refl, Shed.refl.dirs, h1, fun hd => ?_⟩
      rcases hj with hj | hj <;> (rw [hd] at hj; exact absurd hj (by decide))
    | @new jp j d k name hw hv h1 =>
      refine ⟨j, _, tame_new h.inv.wf hv, (dirs_made (hc hset) hv).shed shed_release, h1, fun hd => ?_⟩
      rw [new_type hv] at hd
      exact absurd hd (by decide)
  · rw [wp_bind]
    refine wp_mono (namei_spec h hr path) (fun r s1 h1 => ?_) fun _ _ => trivial
    rcases h1 with ⟨rfl, h1⟩ | ⟨jp, j, rfl, -, h1⟩
    · exact ⟨N, .refl, Shed.refl.dirs, h1⟩
    have hmem := Multiset.mem_cons_self (jp, j) L
    simp only [wp_bind]
    refine wp_mono (h1.ilock hmem List.not_mem_nil) (fun _ s2 h2 => ?_) fun _ _ => trivial
    have hent := h2.2.entry hmem List.mem_cons_self
    simp only [getInode, wp_bind, wp_get, wp_pure]
    rw [wp_ite, hent, h2.2.type (h2.2.lt hmem)]
    refine ⟨fun _ => ?_, fun hno => ⟨j, N, .refl, Shed.refl.dirs, h2.2, fun hd => ?_⟩⟩
    · rw [wp_bind]
      exact wp_imp (h2.2.iunlockput List.not_mem_nil) fun _ s3 h3 => ⟨_, tame_release, shed_release.dirs, h3⟩
    · by_contra hm
      exact hno ⟨hd, hm⟩

/-- A file is opened. -/
theorem SysInv.opened {s' : State} {ff : File} (h : SysInv sb σ L N) (hclosed : (σ.ftable f).type = .none) (hff : ff.type ≠ .none)
    (href : ff.ref ≠ 0) (ht : Tame sb.ninodes L N N') (hs : Tidy sb s' ((ff.ip, i) ::ₘ L) N')
    (hro : ff.writable = true → (N' i).type ≠ T_DIR) (hd : Dirs c N N') :
    Done sb c σ L N { σ with fs := s', ftable := Function.update σ.ftable f ff } := by
  have hle : L ≤ (ff.ip, i) ::ₘ L := Multiset.le_cons_self L _
  refine ⟨_, N', ⟨hs, ?_, fun g hg => ?_, fun g hg hw j hj => ?_⟩, h.moved le_rfl hle ht hd fun g hopen _ => ?_⟩
  · refine add_right_cancel (b := (σ.ftable f).ptr) (Eq.trans ?_ ptrs_setFile.symm)
    rw [Multiset.map_cons, h.refs, ptr_closed hclosed, add_zero, ptr_open hff, add_comm, Multiset.singleton_add]
  · by_cases hgf : g = f
    · simp only [hgf, Function.update_self] at hg
      exact absurd hg href
    · simp only [Function.update_of_ne hgf] at hg ⊢
      exact h.idle g hg
  · by_cases hgf : g = f
    · subst hgf
      simp only [Function.update_self] at hw hj
      obtain rfl := hs.ctx.uniq_inum hj (Multiset.mem_cons_self _ _)
      exact hro hw
    · simp only [Function.update_of_ne hgf] at hg hw hj
      obtain ⟨m, hm⟩ := h.file hg
      obtain rfl := hs.ctx.uniq_inum hj (Multiset.mem_cons_of_mem hm)
      rw [(ht.kept _ hm (h.tidy.alive _ hm)).1]
      exact h.ro g hg hw _ hm
  · have hgf : g ≠ f := by
      rintro rfl
      exact hopen hclosed
    exact ⟨congrArg File.ip (Function.update_of_ne hgf _ _), h.refs ▸ mem_ptrs_file hopen⟩

/-- The end of `open` when there is no room for the file. -/
theorem openFail_done {σ0 : Sys} {s : State} (h : SysInv sb σ L N) (hf : ∀ f, (σ0.ftable f).type ≠ .none → σ.ftable f = σ0.ftable f)
    (ht : Tame sb.ninodes L N N') (hd : Dirs c N N') (hc : Ctx sb s ((ip, i) ::ₘ L) [ip] N') :
    wp (do liftFs (iunlockput sb ip); liftFs endOp; return (-1 : ℤ)) (fun _ σ' => Done sb c σ0 L N σ') (fun _ => True)
      { σ with fs := s } := by
  simp only [wp_bind, wp_liftFs, wp_pure]
  refine wp_imp (hc.iunlockput List.not_mem_nil) fun _ s1 h1 => ?_
  refine wp_imp h1.endOp fun _ s2 h2 => ?_
  have hdone : Done sb c σ L N { σ with fs := s2 } := h.call (ht.trans tame_release) h2 (hd.shed shed_release)
  exact hdone.of_files hf

theorem filealloc_spec : wp filealloc (fun r σ' => (r = none ∧ σ' = σ) ∨ ∃ f, r = some f ∧ (σ.ftable f).ref = 0 ∧
    σ' = { σ with ftable := Function.update σ.ftable f { σ.ftable f with ref := 1 } }) (fun _ => False) σ := by
  simp only [filealloc, wp_bind, wp_get]
  split
  · rename_i f hfind
    exact .inr ⟨f, rfl, by simpa using List.find?_some hfind, rfl⟩
  · exact .inl ⟨rfl, rfl⟩

theorem isSet_zero (flag : UInt32) : isSet 0 flag = false := by simp [isSet]

theorem fileclose_unused (href : (σ.ftable f).ref = 1) (hclosed : (σ.ftable f).type = .none) :
    wp (fileclose sb f) (fun _ σ' => σ' =
      { σ with ftable := Function.update σ.ftable f { σ.ftable f with ref := 0, type := .none } }) (fun _ => False) σ := by
  simp only [fileclose, wp_bind, wp_getFile, wp_ite, wp_throw, wp_setFile, wp_pure, href, hclosed]
  simp

/-- The end of `open` when all went well. -/
theorem openEnd_done {s : State} {ff : File} (h : SysInv sb σ L N) (hclosed : (σ.ftable f).type = .none) (hff : ff.type ≠ .none)
    (href : ff.ref ≠ 0) (hip : ff.ip = ip) (hw : ff.writable = true → (N' i).type ≠ T_DIR) (ht : Tame sb.ninodes L N N')
    (hd : Dirs c N N') (hc : Ctx sb s ((ip, i) ::ₘ L) [ip] N') (fd : Fd) :
    wp (do liftFs (iunlock ip); liftFs endOp; return (fd.val : ℤ)) (fun _ σ' => Done sb c σ L N σ') (fun _ => True)
      ⟨s, Function.update σ.ftable f ff,
        Function.update σ.procs p { σ.procs p with ofile := Function.update (σ.procs p).ofile fd (some f) }⟩ := by
  subst hip
  have hmem := Multiset.mem_cons_self (ff.ip, i) L
  simp only [wp_bind, wp_liftFs, wp_pure]
  refine wp_imp (hc.iunlock hmem List.not_mem_nil) fun _ s1 h1 => ?_
  refine wp_imp h1.endOp fun _ s2 h2 => ?_
  have hs : Tidy sb s2 ((ff.ip, i) ::ₘ L) N' := by
    refine ⟨h2, ht.range h.tidy.range, Multiset.forall_mem_cons.mpr ⟨?_, ht.alive h.tidy.alive⟩⟩
    exact hc.locked_type hmem List.mem_cons_self
  have hdone := (h.setOfile p fd (some f)).opened hclosed hff href ht hs hw hd
  exact hdone.of_files fun _ _ => rfl

theorem openFile_done {s : State} {omode : UInt32} (h : SysInv sb σ L N) (hopen : Openable sb c L N omode ip s) :
    wp (openFile sb p ip omode) (fun _ σ' => Done sb c σ L N σ') (fun _ => True) { σ with fs := s } := by
  obtain ⟨i, N', ht, hd, hc, hro⟩ := hopen
  have hmem := Multiset.mem_cons_self (ip, i) L
  simp only [openFile, wp_bind]
  rw [wp_liftFs]
  simp only [getInode, wp_bind, wp_get, wp_pure]
  rw [wp_ite]
  refine ⟨fun _ => openFail_done h (fun _ _ => rfl) ht hd hc, fun _ => ?_⟩
  rw [wp_bind]
  refine wp_imp filealloc_spec fun r σ1 h1 => ?_
  rcases h1 with ⟨rfl, rfl⟩ | ⟨f, rfl, href, rfl⟩
  · exact openFail_done h (fun _ _ => rfl) ht hd hc
  have hclosed := h.idle f href
  have h1 : SysInv sb { σ with ftable := Function.update σ.ftable f { σ.ftable f with ref := 1 } } L N :=
    h.setFile rfl rfl rfl fun h0 => by cases h0
  have hne : ∀ g, (σ.ftable g).type ≠ .none → g ≠ f := fun g hg hgf => hg (by rw [hgf, hclosed])
  simp only [wp_bind]
  refine wp_imp (fdalloc_spec p f) fun r σ2 h2 => ?_
  rcases h2 with ⟨rfl, rfl⟩ | ⟨fd, rfl, rfl⟩
  · simp only [wp_bind]
    refine wp_imp (fileclose_unused (by simp only [Function.update_self]) (by simp only [Function.update_self]; exact hclosed))
      fun _ σ3 h3 => ?_
    subst h3
    have h3 := h1.unused (f := f) (by simp only [Function.update_self]; exact hclosed)
    have hsame : ∀ ff ff' : File, ∀ g, (σ.ftable g).type ≠ .none →
        Function.update (Function.update σ.ftable f ff) f ff' g = σ.ftable g := fun _ _ g hg => by
      rw [Function.update_of_ne (hne g hg), Function.update_of_ne (hne g hg)]
    simpa only [wp_bind] using openFail_done h3 (hsame _ _) ht hd hc
  · simp only [wp_bind, wp_getFile, wp_setFile, Function.update_self, Function.update_idem]
    have hw : (isSet omode O_WRONLY || isSet omode O_RDWR) = true → (N' i).type ≠ T_DIR := fun hw hdir => by
      rw [hro hdir, isSet_zero, isSet_zero] at hw
      cases hw
    rw [wp_ite]
    refine ⟨fun htrunc => ?_, fun _ => ?_⟩
    · rw [wp_bind, wp_liftFs]
      have hfile : (N' i).type ≠ T_DIR := by
        rw [← hc.type (hc.lt hmem), ← hc.entry hmem List.mem_cons_self, htrunc.2]
        decide
      refine wp_imp (hc.itrunc hmem List.mem_cons_self hfile) fun _ s1 h1 => ?_
      exact openEnd_done h hclosed (by simp only; split_ifs <;> simp) (by simp only; split_ifs <;> simp) rfl hw ht hd h1 fd
    · exact openEnd_done h hclosed (by simp only; split_ifs <;> simp) (by simp only; split_ifs <;> simp) rfl hw ht hd hc fd

theorem sysOpen_done {omode : UInt32} (h : SysInv sb σ L N) (hr : Ready sb L N cp i) (hc : isSet omode O_CREATE = true → c.Links)
    (path : Option (List UInt8)) : wp (sysOpen sb p cp path omode) (fun _ σ' => Done sb c σ L N σ') (fun _ => True) σ := by
  unfold sysOpen
  cases argstr path with
  | none => exact h.same h fun _ => rfl
  | some path =>
    simp only [wp_bind]
    rw [wp_liftFs]
    refine wp_imp h.tidy.ctx.beginOp fun _ s1 h1 => ?_
    rw [wp_liftFs]
    refine wp_mono (openInode_spec h1 hr hc) (fun r s2 h2 => ?_) fun _ _ => trivial
    cases r with
    | none =>
      obtain ⟨N', ht, hd, h2⟩ := h2
      simp only [wp_bind, wp_liftFs, wp_pure]
      exact wp_imp h2.endOp fun _ s3 h3 => h.call ht h3 hd
    | some ip => exact openFile_done h h2

end Open

section Step

/-- Every call keeps the invariant. -/
theorem SysInv.run (h : SysInv sb σ L N) (hroot : ROOTINO < sb.ninodes) (hp : (σ.procs c.pid).cwd = some cp) (hen : c.enabled σ) :
    wp (c.run sb cp) (fun _ σ' => Done sb c σ L N σ') (fun _ => True) σ := by
  obtain ⟨i, hi⟩ := h.cwd hp
  have hr := h.tidy.ready hroot hi
  cases c with
  | «open» p path omode => exact sysOpen_done h hr id path
  | mkdir p path => exact mknodType_done h hr (by trivial) (.inl rfl) path
  | mknod p path major minor => exact mknodType_done h hr (by trivial) (.inr rfl) path
  | link p old new => exact sysLink_done h hr (by trivial) old new
  | unlink p path => exact sysUnlink_done h hr (by trivial) path
  | chdir p path => exact sysChdir_done h hp hr path
  | exec p path mem => exact sysExec_done h hr path mem
  | read p fd dst n got =>
    simp only [Call.run, wp_bind, wp_pure]
    exact sysRead_done h p fd dst n got
  | fstat p fd mapped =>
    simp only [Call.run, wp_bind, wp_pure]
    exact sysFstat_done h p fd mapped
  | write p fd mem n => exact sysWrite_done h p fd mem n
  | dup p fd => exact sysDup_done h p fd
  | close p fd => exact sysClose_done h p fd
  | fork p np =>
    simp only [Call.run, wp_bind, wp_pure]
    exact kfork_done h hp hen
  | exit p =>
    simp only [Call.run, wp_bind, wp_pure]
    exact kexit_done h hp

end Step

end Xv6.Fs
