import Xv6.Spec.InodeRun
import Xv6.Sanity.FileData
import Xv6.Sanity.Mkfs

/-! Block ownership over whole runs of operations on inodes. Every operation keeps
the agreement of bitmap and slots on each of its exits, failures included: this is
what the specifications of the operations say, and the step lemma collects it. An
inode leaves the table with its last reference, so the addresses `bmap` stored in it
must be on disk by then. -/

namespace Xv6.Fs

open Machine Wp Ownership

/-- The bitmap says of every block of the data area whether a slot owns it, and no
two slots own the same block; the blocks before the data area are marked, and no
slot owns a block outside of it. Inodes are taken as their lock holder sees them. -/
structure BlocksOwned (sb : Superblock) (s : State) : Prop where
  marked_iff : ∀ b, sb.datastart ≤ b → b < sb.size → (marked sb s b = true ↔ ∃! x, owner sb s x = some b)
  clear : ∀ b, sb.datastart ≤ b → b < sb.size → marked sb s b = false → ∀ x, owner sb s x ≠ some b
  metadata : ∀ b < sb.datastart, marked sb s b = true ∧ ∀ x, owner sb s x ≠ some b
  inside : ∀ x b, owner sb s x = some b → b < sb.size

/-- An operation drops the last reference to an inode only when the addresses in the
table are those on disk, unless the inode is freed by it. -/
def WritesBack (sb : Superblock) (s : State) : Op → Prop
  | .iput ip => (s.itable ip).ref = 1 → (s.itable ip).valid = true → (s.itable ip).d.nlink ≠ 0 →
    (dino sb s (s.itable ip).inum).addrs = (s.itable ip).d.addrs
  | _ => True

instance (sb : Superblock) (s : State) (op : Op) : Decidable (WritesBack sb s op) :=
  match op with
  | .iput _ => inferInstanceAs (Decidable (_ → _ → _ → _))
  | .iget _ | .idup _ | .ialloc _ | .ilock _ | .iunlock _ | .assign .. | .bmap .. | .writei .. | .itrunc _ | .iupdate _ =>
    isTrue trivial

section Owned

variable {sb : Superblock} {s : State}

theorem BlockInv.blocksOwned (h : BlockInv sb s ∅) : BlocksOwned sb s where
  marked_iff := fun b h1 h2 => h.own.marked_iff ⟨h1, h2⟩
  clear := fun b _ _ hm x hx => by
    rw [(h.own.owned hx).2.1] at hm
    cases hm
  metadata := fun b hb => ⟨h.metaMarked b hb, fun x hx => by
    have := (h.own.owned hx).1.1
    omega⟩
  inside := fun x b hx => (h.own.owned hx).1.2

theorem BlocksOwned.blockInv (h : BlocksOwned sb s) : BlockInv sb s ∅ := by
  have harea : ∀ {x b}, owner sb s x = some b → b ∈ dataArea sb := fun {x b} hx => by
    refine ⟨?_, h.inside x b hx⟩
    by_contra hlt
    exact (h.metadata b (not_le.mp hlt)).2 x hx
  have hmark : ∀ {x b}, owner sb s x = some b → marked sb s b = true := fun {x b} hx => by
    by_contra hm
    exact h.clear b (harea hx).1 (harea hx).2 (by simpa using hm) x hx
  refine ⟨⟨fun {x y b} hx hy => ?_, fun {x b} hx => ⟨harea hx, hmark hx, Set.notMem_empty b⟩,
    fun {b} hb hm => Or.inr ?_, fun hb => absurd hb (Set.notMem_empty _)⟩, fun b hb => (h.metadata b hb).1⟩
  · exact ((h.marked_iff b (harea hx).1 (harea hx).2).mp (hmark hx)).unique hx hy
  · exact ((h.marked_iff b hb.1 hb.2).mp hm).exists

end Owned

section Step

variable {sb : Superblock} {s u : State} {ip : Ip}

/-- What the operations of a run keep. -/
structure RunInv (sb : Superblock) (s : State) : Prop where
  tab : TableInv sb s
  blk : BlockInv sb s ∅

/-- The panics a caller can bring about; `bfree`'s is not among them. -/
def Refused (e : Stop) : Prop :=
  e ∈ [.hang, .panic "iget: no inodes", .panic "ilock: no type", .panic "bmap: out of range"]

theorem held_live (h : s.Held ip) : Live s ip (s.itable ip).inum := ⟨h.1, rfl, h.2.2⟩

theorem refused_noInodes {e : Stop} (h : noInodes e) : Refused e := by
  rw [noInodes] at h
  simp [Refused, h]

theorem refused_noType {e : Stop} (h : noType e) : Refused e := by
  rw [noType] at h
  simp [Refused, h]

theorem bmap_keeps (hsb : sb.Wf) (hI : RunInv sb s) (hl : Live s ip (s.itable ip).inum) (bn : ℕ) :
    wp (bmap sb ip bn) (fun _ s' => RunInv sb s') Refused s := by
  by_cases hbn : bn < MAXFILE
  · exact wp_imp (bmap_spec hsb hI.tab hI.blk hl hbn) fun _ s' h => ⟨h.1.tab, h.1.blk⟩
  · have h1 : ¬ bn < NDIRECT := fun h => hbn (lt_of_lt_of_le h (Nat.le_add_right _ _))
    have h2 : ¬ bn - NDIRECT < NINDIRECT := by
      have hmax : MAXFILE = NDIRECT + NINDIRECT := rfl
      omega
    rw [bmap, dif_neg h1, if_neg h2]
    exact List.mem_of_elem_eq_true rfl

theorem ilock_keeps (hsb : sb.Wf) (hI : RunInv sb s) (hr : s.Ref ip) :
    wp (ilock sb ip) (fun _ s' => RunInv sb s') Refused s := by
  have hat : At s ip (s.itable ip).inum := ⟨hr, rfl⟩
  cases hlk : (s.itable ip).locked with
  | false =>
    refine wp_mono (ilock_spec hI.tab hat hlk) (fun _ s' h => ?_) fun e he => refused_noType he.2
    obtain ⟨ht, rfl⟩ := h
    exact ⟨hI.tab.lock hat ht, hI.blk.lock hI.tab hat ht hsb⟩
  | true =>
    have hr1 : ¬ (s.itable ip).ref < 1 := by
      have : 0 < (s.itable ip).ref := hr
      omega
    simp only [ilock, acquiresleep, getInode, wp_bind, wp_get, wp_pure, if_neg hr1, hlk, if_true, wp_throw]
    simp [Refused]

theorem iput_keeps (hsb : sb.Wf) (hI : RunInv sb s) (hmay : (Op.iput ip).May sb s) (hw : WritesBack sb s (.iput ip)) :
    wp (iput sb ip) (fun _ s' => RunInv sb s') Refused s := by
  obtain ⟨hr, hlk⟩ := hmay
  have hat : At s ip (s.itable ip).inum := ⟨hr, rfl⟩
  refine wp_imp (iput_spec hsb hI.tab hI.blk hat fun hlast => ?_) fun _ s' h => ?_
  · by_contra hl
    have := hlk (by simpa using hl)
    have := hlast.1
    omega
  · rcases h with ⟨-, hF⟩ | ⟨hkeep, rfl⟩
    · exact ⟨hF.tab, hF.blk⟩
    · exact ⟨hI.tab.drop hat, hI.blk.drop hsb hI.tab hat fun h1 hv =>
        hw h1 hv fun hz => hkeep ⟨h1, hv, hz⟩⟩

/-- The step lemma: no operation breaks the invariant, whichever way it ends. -/
theorem run_keeps (hsb : sb.Wf) (hI : RunInv sb s) {op : Op} (hmay : op.May sb s) (hw : WritesBack sb s op) :
    wp (op.run sb) (fun _ s' => RunInv sb s') Refused s := by
  have hT := hI.tab
  have hB := hI.blk
  cases op with
  | iget inum =>
    rw [Op.run, wp_bind]
    refine wp_mono (iget_spec hT inum) (fun ip s' h => ?_) fun e he => refused_noInodes he
    obtain ⟨ha, rfl⟩ := h
    exact ⟨hT.got ha hmay, hB.got hT ha hmay hsb⟩
  | idup ip =>
    have hat : At s ip (s.itable ip).inum := ⟨hmay, rfl⟩
    rw [Op.run, wp_bind]
    refine wp_imp (idup_spec hat) fun r s' h => ?_
    obtain ⟨-, rfl⟩ := h
    have hi := hT.inum ip hmay
    exact ⟨hT.got (Or.inl hat) hi, hB.got hT (Or.inl hat) hi hsb⟩
  | ialloc type =>
    rw [Op.run, wp_bind]
    refine wp_mono (ialloc_spec hT type) (fun r s' h => ?_) fun e he => refused_noInodes he
    rcases h with ⟨-, rfl⟩ | ⟨ip, i, -, hi, hfree, ha, -, rfl⟩
    · exact hI
    · have hT1 : TableInv sb (s.take sb i type) := hT.take hfree
      exact ⟨hT1.got ha hi, (hB.take hT hfree hsb hi).got hT1 ha hi hsb⟩
  | ilock ip => exact ilock_keeps hsb hI hmay
  | iunlock ip =>
    refine wp_imp (iunlock_spec hmay.1 hmay.2.1) fun _ s' h => ?_
    subst h
    exact ⟨hT.unlock ⟨hmay.1, rfl⟩, hB.unlock hT ⟨hmay.1, rfl⟩ hsb⟩
  | assign ip major minor nlink =>
    rw [Op.run, wp_setD]
    exact ⟨hT.assign rfl, hB.assign hT (held_live hmay) rfl rfl⟩
  | bmap ip bn =>
    rw [Op.run, wp_bind]
    exact bmap_keeps hsb hI (held_live hmay) bn
  | writei ip src off n =>
    rw [Op.run, wp_bind]
    refine wp_imp (writei_spec hsb hT hB (held_live hmay) src off n) fun r s' h => ?_
    rcases h with ⟨-, -, rfl⟩ | ⟨-, -, tot, -, hwrote⟩
    · exact hI
    · exact ⟨hwrote.tab, hwrote.blk⟩
  | itrunc ip => exact wp_imp (itrunc_spec hsb hT hB (held_live hmay)) fun _ s' h => ⟨h.tab, h.blk⟩
  | iupdate ip =>
    refine wp_imp iupdate_spec fun _ s' h => ?_
    subst h
    exact ⟨hT.update (held_live hmay), hB.update hsb hT (held_live hmay)⟩
  | iput ip => exact iput_keeps hsb hI hmay hw

theorem step_ok {op : Op} (h : step sb op s = .ok u) : op.May sb s ∧ ∃ r, (op.run sb).run s = .ok (r, u) := by
  rw [step] at h
  split_ifs at h with hmay
  refine ⟨hmay, ?_⟩
  cases hrun : (op.run sb).run s with
  | ok r =>
    rw [hrun] at h
    exact ⟨r.1, by rw [← Outcome.ok.inj h]⟩
  | error e =>
    rw [hrun] at h
    cases e <;> cases h

theorem step_panic {op : Op} {msg : String} (h : step sb op s = .panic msg) :
    op.May sb s ∧ (op.run sb).run s = .error (.panic msg) := by
  rw [step] at h
  split_ifs at h with hmay
  refine ⟨hmay, ?_⟩
  cases hrun : (op.run sb).run s with
  | ok r =>
    rw [hrun] at h
    cases h
  | error e =>
    rw [hrun] at h
    cases e with
    | panic m => rw [Outcome.panic.inj h]
    | hang => cases h

end Step

/-- In every state of a run from a well-formed disk in which addresses are written back before
the inode is given up, bitmap and slots agree; so no operation then frees a free block. -/
theorem blocks_owned_once (sb : Superblock) (hsb : sb.Wf) (disk : ℕ → Block) (h0 : BlocksOwned sb (.boot disk))
    (ops : List Op) (u : State) (h : Run (step sb) (WritesBack sb) (.boot disk) ops u) :
    BlocksOwned sb u ∧ ∀ op, WritesBack sb u op → step sb op u ≠ .panic "freeing free block" := by
  have hI : RunInv sb u := h.inv (I := RunInv sb) ⟨boot_tableInv disk, h0.blockInv⟩ fun s op s' hs hw hstep => by
    obtain ⟨hmay, r, hrun⟩ := step_ok hstep
    exact wp_ok (m := op.run sb) (run_keeps hsb hs hmay hw) hrun
  refine ⟨hI.blk.blocksOwned, fun op hw hp => ?_⟩
  obtain ⟨hmay, hrun⟩ := step_panic hp
  have := wp_error (m := op.run sb) (run_keeps hsb hI hmay hw) hrun
  simp [Refused] at this

/-- A file is created and gets a block; a write stops at a
fault; the file is then unlinked and freed. -/
def writeAndFree : List Op :=
  [.ialloc T_FILE, .ilock 0, .assign 0 0 0 1, .bmap 0 0, .iupdate 0,
    .writei 0 (.user fun t => if t < 1500 then some 7 else none) 0 4000, .bmap 0 12, .iupdate 0,
    .assign 0 0 0 0, .iupdate 0, .iunlock 0, .iput 0]

theorem writeAndFree_runs : (execIf (step smallSb) (fun s op => decide (WritesBack smallSb s op)) writeAndFree
    (.boot (mkfs smallSb))).Sat fun u => marked smallSb u 8 = false := by decide +kernel

theorem blocks_owned_once_writeAndFree : ∃ u,
    Run (step smallSb) (WritesBack smallSb) (.boot (mkfs smallSb)) writeAndFree u ∧ BlocksOwned smallSb u ∧
      ∀ op, WritesBack smallSb u op → step smallSb op u ≠ .panic "freeing free block" := by
  obtain ⟨u, hu, -⟩ := writeAndFree_runs.ok
  have h := (run_of_execIf hu).mono (Q := WritesBack smallSb) fun _ _ hp => of_decide_eq_true hp
  exact ⟨u, h, blocks_owned_once smallSb smallSb_fits.wf (mkfs smallSb) (mkfs_blockInv smallSb_fits).blocksOwned
    writeAndFree u h⟩

section Leak

variable {sb : Superblock} {s : State} {b : ℕ}

/-- No allocated inode has `b` among its addresses, and none has an indirect block. -/
def Unowned (sb : Superblock) (s : State) (b : ℕ) : Prop :=
  ∀ i < sb.ninodes, (cur sb s i).type ≠ 0 →
    (cur sb s i).addrs (Fin.last NDIRECT) = 0 ∧ ∀ k, ((cur sb s i).addrs k).toNat ≠ b

instance : Decidable (Unowned sb s b) := by
  unfold Unowned
  infer_instance

theorem Unowned.owner_ne (h : Unowned sb s b) (x : Slot) : owner sb s x ≠ some b := by
  intro hx
  cases x with
  | direct i k =>
    simp only [owner, slotAddr] at hx
    split_ifs at hx with hp
    exact (h i hp.1 hp.2.1).2 k (Option.some.inj hx)
  | entry i j =>
    simp only [owner, slotAddr] at hx
    split_ifs at hx with hp
    exact hp.2.2.1 (h i hp.1 hp.2.1).1

end Leak

/-- `bmap` stores the block it takes in the table only; with the last reference it is lost. -/
def mapAndDrop : List Op :=
  [.ialloc T_FILE, .ilock 0, .assign 0 0 0 1, .iupdate 0, .bmap 0 0, .iunlock 0, .iput 0]

theorem mapAndDrop_runs : (execIf (step smallSb) (fun _ _ => true) mapAndDrop (.boot (mkfs smallSb))).Sat
    fun u => marked smallSb u 8 = true ∧ Unowned smallSb u 8 := by decide +kernel

theorem bmap_without_iupdate_leaks : smallSb.Wf ∧ BlocksOwned smallSb (.boot (mkfs smallSb)) ∧
    ∃ u, Run (step smallSb) Free (.boot (mkfs smallSb)) mapAndDrop u ∧
      ∃ b, smallSb.datastart ≤ b ∧ b < smallSb.size ∧ ¬ (marked smallSb u b = true ↔ ∃! x, owner smallSb u x = some b) := by
  obtain ⟨u, hu, hm, hun⟩ := mapAndDrop_runs.ok
  refine ⟨smallSb_fits.wf, (mkfs_blockInv smallSb_fits).blocksOwned, u, (run_of_execIf hu).free, 8, by decide,
    by decide, fun h => ?_⟩
  obtain ⟨x, hx, -⟩ := h.mp hm
  exact hun.owner_ne x hx

end Xv6.Fs
