import Xv6.Proofs.OrphanRecovery
import Xv6.Sanity.Image
import Xv6.Sanity.SysCalls

/-! Files have no holes, so reading never allocates a block. -/

namespace Xv6.Fs

open Wp Machine

variable {sb : Superblock} {s s' : State} {L : Multiset (Ip × ℕ)} {N : ℕ → Node} {ip : Ip} {i : ℕ}

/-- The state is tidy, whatever the references and the nodes are. -/
def AllTidy (sb : Superblock) (s : State) : Prop := ∃ L N, Tidy sb s L N

section Ops

/-- An operation under the lock of `ip`. -/
theorem Tidy.locked {α : Type} {m : FsM α} (h : Tidy sb s L N) (hr : (ip, i) ∈ L)
    (hm : ∀ s1, Ctx sb s1 L [ip] N → wp m (fun _ s2 => ∃ N', Tame sb.ninodes L N N' ∧ Ctx sb s2 L [ip] N') (fun _ => True) s1) :
    wp (do ilock sb ip; let _ ← m; iunlock ip) (fun _ s' => AllTidy sb s') (fun _ => True) s := by
  simp only [wp_bind]
  refine wp_mono (h.ctx.ilock hr List.not_mem_nil) (fun _ s1 h1 => ?_) fun _ _ => trivial
  refine wp_mono (hm s1 h1.2) (fun _ s2 h2 => ?_) fun _ => id
  obtain ⟨N', ht, h2⟩ := h2
  exact wp_imp (h2.iunlock hr List.not_mem_nil) fun _ s3 h3 => ⟨L, N', h.tame ht h3⟩

theorem Tidy.create {type major minor : Int16} (h : Tidy sb s L N) (hr : Ready sb L N ip i) (ht : type ≠ 0)
    (path : List UInt8) :
    wp (do match ← create sb ip path type major minor with | none => pure () | some jp => iunlock jp)
      (fun _ s' => AllTidy sb s') (fun _ => True) s := by
  rw [wp_bind]
  refine wp_mono (create_spec h.ctx hr ht path) (fun r s1 h1 => ?_) fun _ _ => trivial
  cases h1 with
  | failed hN h1 => exact ⟨L, _, h.tame (tame_unmade hN) h1⟩
  | @found jp j _ hj _ h1 =>
    refine wp_imp (h1.iunlock (Multiset.mem_cons_self _ _) List.not_mem_nil) fun _ s2 h2 => ⟨_, N, h2, h.range, ?_⟩
    refine Multiset.forall_mem_cons.mpr ⟨?_, h.alive⟩
    rcases hj with hj | hj <;> (rw [hj]; decide)
  | @new jp j d k name hw hv h1 =>
    have htame : Tame sb.ninodes L N (release (made N d j k name type) ((jp, j) ::ₘ L) d) := tame_new h.ctx.inv.wf hv
    refine wp_imp (h1.iunlock (Multiset.mem_cons_self _ _) List.not_mem_nil) fun _ s2 h2 => ⟨_, _, h2, htame.range h.range, ?_⟩
    refine Multiset.forall_mem_cons.mpr ⟨?_, htame.alive h.alive⟩
    rw [new_type hv]
    exact ht

/-- Every operation leaves the state tidy. -/
theorem Tidy.run (h : Tidy sb s L N) (hroot : ROOTINO < sb.ninodes) {op : FileOp} (hmay : op.May sb s) :
    wp (op.run sb) (fun _ s' => AllTidy sb s') (fun _ => True) s := by
  cases op with
  | iget inum =>
    simp only [FileOp.run, wp_bind, wp_pure]
    refine wp_mono (h.ctx.iget hmay.1) (fun ip s1 h1 => ⟨_, N, h1, h.range, ?_⟩) fun _ _ => trivial
    refine Multiset.forall_mem_cons.mpr ⟨?_, h.alive⟩
    rw [← h.typeOf hmay.1]
    exact hmay.2
  | iput ip =>
    obtain ⟨L0, hL⟩ := Multiset.exists_cons_of_mem (h.ctx.ref_of_pos hmay)
    have hc := h.ctx
    rw [hL] at hc
    have htame : Tame sb.ninodes L0 N (release N L0 (s.itable ip).inum) := tame_release
    refine wp_imp (hc.iput fun hk => absurd hk List.not_mem_nil) fun _ s1 h1 => ⟨L0, _, h1, htame.range h.range, ?_⟩
    refine htame.alive fun r hr => h.alive r ?_
    rw [hL]
    exact Multiset.mem_cons_of_mem hr
  | writei ip src off n =>
    have hr := h.ctx.ref_of_pos hmay.1
    have hfile : (N (s.itable ip).inum).type ≠ T_DIR := h.typeOf (h.ctx.lt hr) ▸ hmay.2
    exact h.locked hr fun s1 h1 => wp_imp (h1.writeFile hr List.mem_cons_self hfile src off n) fun _ s2 h2 => ⟨N, .refl, h2⟩
  | itrunc ip =>
    have hr := h.ctx.ref_of_pos hmay.1
    have hfile : (N (s.itable ip).inum).type ≠ T_DIR := h.typeOf (h.ctx.lt hr) ▸ hmay.2
    exact h.locked hr fun s1 h1 => wp_imp (h1.itrunc hr List.mem_cons_self hfile) fun _ s2 h2 => ⟨N, .refl, h2⟩
  | dirlink dp name inum =>
    have hr := h.ctx.ref_of_pos hmay.1
    have hlt := h.ctx.lt hr
    have hdir : (N (s.itable dp).inum).type = T_DIR := h.typeOf hlt ▸ hmay.2.1
    refine h.locked hr fun s1 h1 => ?_
    refine wp_mono (dirlink_spec ⟨h1, hr, List.mem_cons_self, hdir⟩ (h.range _ hlt hdir) (fun j hj => h1.kept.not_last hj)
      (fun jp hj => ⟨_, (List.mem_singleton.mp hj) ▸ hr⟩) name inum) (fun r s2 h2 => ?_) fun _ _ => trivial
    rcases h2 with ⟨-, h2⟩ | ⟨-, N', hlink, h2⟩
    · exact ⟨N, .refl, h2⟩
    · obtain ⟨k, -, -, rfl⟩ := hlink.put
      refine ⟨_, tame_putEnt ?_, h2⟩
      rw [toNat_inum h.ctx.inv.wf hmay.2.2]
      exact hmay.2.2
  | create cwd path type major minor =>
    exact h.create (h.ready hroot (h.ctx.ref_of_pos hmay.1)) hmay.2 path
  | unlink cwd path =>
    simp only [FileOp.run, wp_bind, wp_pure]
    refine wp_mono (sysUnlink_spec h.ctx (h.ready hroot (h.ctx.ref_of_pos hmay)) path) (fun r s1 h1 => ?_) fun _ _ => trivial
    cases h1 with
    | failed h1 => exact ⟨L, N, h1, h.range, h.alive⟩
    | done hp hw hdots hrem h1 => exact ⟨L, _, h.tame (tame_unlinked (by omega)) h1⟩

theorem fileStep_ok {op : FileOp} (h : fileStep sb op s = .ok s') : op.May sb s ∧ ∃ r, op.run sb s = .ok (r, s') := by
  rw [fileStep] at h
  split_ifs at h with hmay
  refine ⟨hmay, ?_⟩
  cases hrun : (op.run sb).run s with
  | ok r =>
    rw [hrun] at h
    exact ⟨r.1, hrun.trans (by rw [← Outcome.ok.inj h])⟩
  | error e =>
    rw [hrun] at h
    cases e <;> cases h

/-- The states of a run are tidy. -/
theorem AllTidy.reached (h : AllTidy sb s) (hroot : ROOTINO < sb.ninodes) {ops : List FileOp}
    (hrun : Run (fileStep sb) Free s ops s') : AllTidy sb s' :=
  hrun.inv (I := AllTidy sb) h fun t op u ht _ hstep => by
    obtain ⟨L, N, ht⟩ := ht
    obtain ⟨hmay, r, hop⟩ := fileStep_ok hstep
    exact wp_ok (m := op.run sb) (ht.run hroot hmay) hop

end Ops

section Reads

/-- Every allocated inode has a block for every index below its size. -/
def NoHoles (sb : Superblock) (s : State) : Prop :=
  ∀ i < sb.ninodes, (dino sb s i).type ≠ 0 → ∀ bn, bn * BSIZE < (dino sb s i).size.toNat → owner sb s (fileSlot i bn) ≠ none

theorem FsInv.noHoles (h : FsInv sb s) : NoHoles sb s := fun i hi ht bn hbn => by
  rw [← h.clean i hi] at ht hbn
  have hdense := h.dense i hi ht _ hbn
  rwa [Nat.mul_div_cancel _ (by decide)] at hdense

/-- The program returns, and nothing has been written to the disk or to the log. -/
def Quiet {α : Type} (m : SysM α) (σ : Sys) : Prop :=
  ∃ r σ', m σ = .ok (r, σ') ∧ σ'.fs.disk = σ.fs.disk ∧ σ'.fs.logged = σ.fs.logged

variable {σ : Sys} {f : FileIx}

theorem quiet_of_used {α : Type} {m : SysM α} (h : wp m (fun _ σ' => UsedUp sb σ f L N True σ') (fun _ => False) σ) :
    Quiet m σ := by
  obtain ⟨r, σ', hm, s', off, rfl, -, hquiet⟩ := wp_returns h
  exact ⟨r, _, hm, hquiet trivial⟩

theorem Tidy.filestat (h : Tidy sb σ.fs L N) (hr : ((σ.ftable f).ip, i) ∈ L) (mapped : Bool) :
    Quiet (filestat sb f mapped) σ :=
  quiet_of_used (filestat_spec h (fun _ => hr) mapped)

theorem Tidy.fileread (h : Tidy sb σ.fs L N) (hr : ((σ.ftable f).ip, i) ∈ L) (ht : (σ.ftable f).type ≠ .none)
    (dst : Dst) (n : UInt32) (got : ℤ) : Quiet (fileread sb f dst n got) σ :=
  quiet_of_used (wp_mono (fileread_spec h (fun _ => hr) dst n got) (fun _ _ => id) fun _ => ht)

end Reads

/-- **Files are dense and reads do not allocate.** The kernel starts from any image without holes. After any sequence of
operations no inode has a hole; so `readi` leaves the state as it is, and `fileread` and `filestat`, which open no
transaction, return without a call of `log_write`. -/
theorem files_stay_dense (sb : Superblock) (disk : ℕ → Block) (h : Image sb disk) :
    ∃ s0, ireclaim sb ROOTDEV (.first disk) = .ok ((), s0) ∧ ∀ ops s, Run (fileStep sb) Free s0 ops s →
      NoHoles sb s ∧
      (∀ ip, s.Ref ip → ilock sb ip s = .ok ((), s.lock sb ip) ∧
        ∀ dst off n, ∃ r, readi sb ip dst off n (s.lock sb ip) = .ok (r, s.lock sb ip)) ∧
      ∀ σ : Sys, σ.fs = s → ∀ f, (σ.ftable f).type ≠ .none → s.Ref (σ.ftable f).ip →
        (∀ dst n got, Quiet (fileread sb f dst n got) σ) ∧ ∀ mapped, Quiet (filestat sb f mapped) σ := by
  obtain ⟨s0, hrun, hp⟩ := h.start
  have h0 : AllTidy sb s0 := ⟨_, _, hp.tidy h⟩
  refine ⟨s0, hrun, fun ops s hops => ?_⟩
  obtain ⟨L, N, ht⟩ := h0.reached h.root hops
  refine ⟨ht.ctx.inv.noHoles, fun ip hr => ?_, ?_⟩
  · have hr := ht.ctx.ref_of_pos hr
    obtain ⟨_, s1, hl, rfl, h1⟩ := wp_returns (ht.lock hr)
    refine ⟨hl, fun dst off n => ?_⟩
    obtain ⟨r, s2, h2, rfl⟩ := wp_returns (h1.readi_same hr List.mem_cons_self dst off n)
    exact ⟨r, h2⟩
  · rintro σ rfl f htype hr
    have hr := ht.ctx.ref_of_pos hr
    exact ⟨ht.fileread hr htype, ht.filestat hr⟩

/-- A file is created and written up to a fault, its inode is cut to nothing, and it is unlinked. -/
def fileOps : List FileOp :=
  [.create 0 [47, 102] T_FILE 0 0, .writei 1 (.user fun t => if t < 1500 then some 7 else none) 0 4000, .itrunc 1,
    .writei 1 (.kernel [1, 2, 3]) 0 3, .iput 1, .unlink 0 (some [47, 102, 0])]

theorem fileOps_run : ((ireclaim smallSb ROOTDEV (.first (mkfs smallSb))).toOption.any fun r =>
    decide ((execIf (fileStep smallSb) (fun _ _ => true) fileOps r.2).Sat fun s => typeOf smallSb s 2 = 0)) = true := by
  decide +kernel

theorem files_stay_dense_fileOps : Image smallSb (mkfs smallSb) ∧
    ∃ s0 s, Run (fileStep smallSb) Free s0 fileOps s ∧ NoHoles smallSb s := by
  obtain ⟨s0, h0, h⟩ := files_stay_dense smallSb (mkfs smallSb) (mkfs_image smallSb_fits)
  have hrun := fileOps_run
  rw [h0] at hrun
  obtain ⟨s, hs, -⟩ := (of_decide_eq_true hrun).ok
  exact ⟨mkfs_image smallSb_fits, s0, s, (run_of_execIf hs).free, (h _ _ (run_of_execIf hs).free).1⟩

end Xv6.Fs
