import Xv6.Lib.Alike
import Xv6.Sanity.InodeTable
import Xv6.Sanity.Mkfs
import Xv6.Spec.Reclaim

/-! The passes of `ireclaim`. Each frees an inode without links, and what it does to the disk depends on the disk only. -/

namespace Xv6.Fs

open Wp Bytes

variable {sb : Superblock} {s t : State} {ip jp : Ip} {i j : ℕ}

section Mirror

end Mirror

section Reclaim

/-- The state between two passes of `ireclaim`: the root is referred to, but no inode has been read. -/
structure Booted (sb : Superblock) (s : State) : Prop where
  tab : TableInv sb s
  blk : BlockInv sb s ∅
  refs : ∀ jp, (s.itable jp).ref = if jp = 0 then 1 else 0
  unlocked : ∀ jp, (s.itable jp).locked = false
  stale : (s.itable 0).valid = false
  root : (s.itable 0).inum = ROOTINO
  linked : ¬ (dino sb s ROOTINO).Orphan

theorem Booted.dead (h : Booted sb s) (jp : Ip) (j : ℕ) : ¬ Live s jp j := fun hl => by
  have hr := hl.1
  rw [h.refs] at hr
  split_ifs at hr with hj
  · have hv := hl.2.2
    rw [hj, h.stale] at hv
    cases hv
  · exact absurd hr (Nat.lt_irrefl 0)

theorem Booted.cur_eq (h : Booted sb s) (j : ℕ) : cur sb s j = dino sb s j := cur_dead fun jp => h.dead jp j

theorem Booted.free (h : Booted sb s) (hi : i ≠ ROOTINO) (jp : Ip) : ¬ At s jp i := fun hat => by
  have hr := hat.1
  rw [h.refs] at hr
  split_ifs at hr with hj
  · exact hi (hat.2.symm.trans (by rw [hj, h.root]))
  · exact absurd hr (Nat.lt_irrefl 0)

/-- There is room in the table. -/
theorem Booted.iget (h : Booted sb s) (hi : i ≠ ROOTINO) :
    ∃ ip, iget ROOTDEV i s = .ok (ip, s.got ip i) ∧ (s.itable ip).ref = 0 := by
  have hroom : (s.itable 1).ref = 0 := by
    rw [h.refs]
    rfl
  obtain ⟨ip, s', hrun, ⟨ha, rfl⟩, -⟩ :=
    wp_returns (wp_mono (wp_and (iget_spec h.tab i) iget_full) (fun _ _ => id) fun _ he => he.2 1 hroom)
  exact ⟨ip, hrun, (ha.resolve_left (h.free hi ip)).1⟩

/-- The state in a new transaction. -/
def State.opened (s : State) : State := { s.note .beginOp with tx := s.tx + 1, logged := [] }

theorem TableInv.opened (h : TableInv sb s) : TableInv sb s.opened := ⟨h.dev, h.inum, h.uniq, h.type⟩

/-- The state in which `ireclaim` calls `iput` for orphan `i`. -/
def State.loaded (sb : Superblock) (s : State) (ip : Ip) (i : ℕ) : State :=
  (s.setInode ip ⟨ROOTDEV, i, 1, false, true, dino sb s i⟩).opened

/-- The two calls by which an orphan is read into the table. -/
theorem load_orphan (h : Booted sb s) (hn : i < sb.ninodes) (ho : (dino sb s i).Orphan) (hfree : (s.itable ip).ref = 0)
    (ha : Avail s ip i) :
    ∃ s1, ilock sb ip (s.got ip i).opened = .ok ((), s1) ∧ iunlock ip s1 = .ok ((), s.loaded sb ip i) := by
  have hgot : (s.got ip i) = s.setInode ip ⟨ROOTDEV, i, 1, false, false, (s.itable ip).d⟩ := by
    rw [State.got, if_neg (by omega), ← h.unlocked ip]
  have hcur : cur sb (s.got ip i).opened i = dino sb s i := (h.tab.cur_got ha hn).trans (h.cur_eq i)
  have hfree : ((s.got ip i).opened.itable ip).locked = false := by
    rw [hgot]
    simp [State.opened, setInode_itable_self]
  have hat : At (s.got ip i).opened ip i := got_at ha
  obtain ⟨_, s1, hlock, -, rfl⟩ := wp_returns (wp_mono (ilock_spec (h.tab.got ha hn).opened hat hfree) (fun _ _ => id)
    fun _ he => ho.1 (hcur ▸ he.1))
  have hentry : ((s.got ip i).opened.lock sb ip).itable ip = ⟨ROOTDEV, i, 1, true, true, dino sb s i⟩ := by
    rw [State.lock, setInode_itable_self, hat.2, hcur, hgot]
    simp [State.opened, setInode_itable_self]
  obtain ⟨_, s2, hunlock, rfl⟩ := wp_returns (iunlock_spec (by rw [hentry]; exact Nat.one_pos) (by rw [hentry]))
  refine ⟨_, hlock, hunlock.trans ?_⟩
  rw [State.unlock, hentry, hgot]
  simp [State.loaded, State.lock, State.setInode, State.opened, State.note]

theorem reclaim_orphan (h : Booted sb s) (hn : i < sb.ninodes) (ho : (dino sb s i).Orphan) :
    ∃ ip, (s.itable ip).ref = 0 ∧ reclaim sb ROOTDEV i s = (do iput sb ip; endOp) (s.loaded sb ip i) := by
  have hi : i ≠ ROOTINO := fun he => h.linked (he ▸ ho)
  obtain ⟨ip, hget, hfree⟩ := h.iget hi
  obtain ⟨s1, hlock, hunlock⟩ := load_orphan h hn ho hfree (.inr ⟨hfree, h.free hi⟩)
  have hbegin : beginOp (s.got ip i) = .ok ((), (s.got ip i).opened) := rfl
  refine ⟨ip, hfree, ?_⟩
  rw [reclaim, bind_ok (rfl : bread _ s = .ok (s.disk (sb.iblock i), s)), if_pos (by exact ho), bind_ok hget,
    bind_ok hbegin, bind_ok hlock, bind_ok hunlock]

theorem reclaim_other (ho : ¬ (dino sb s i).Orphan) : reclaim sb ROOTDEV i s = .ok ((), s) := by
  rw [reclaim, bind_ok (rfl : bread _ s = .ok (s.disk (sb.iblock i), s)), if_neg (by exact ho)]
  rfl

/-- What one pass does. -/
structure Pass (sb : Superblock) (s s' : State) (i : ℕ) : Prop where
  booted : Booted sb s'
  freed : (dino sb s i).Orphan → (dino sb s' i).type = 0
  others : ∀ j < sb.ninodes, j ≠ i ∨ ¬ (dino sb s j).Orphan → dino sb s' j = dino sb s j
  data : ∀ c, sb.datastart ≤ c → s'.disk c = s.disk c

theorem Booted.root_lt (h : Booted sb s) : ROOTINO < sb.ninodes := by
  have := h.tab.inum 0 (by rw [h.refs]; exact Nat.one_pos)
  rwa [h.root] at this

section Loaded

variable (h : Booted sb s) (hn : i < sb.ninodes) (ho : (dino sb s i).Orphan)

include h hn ho

theorem loaded_tab : TableInv sb (s.loaded sb ip i) := by
  have hi : i ≠ ROOTINO := fun he => h.linked (he ▸ ho)
  exact TableInv.opened (h.tab.setInode (fun _ => ⟨rfl, hn, fun jp _ => h.free hi jp⟩) fun _ _ => ⟨ho.1, rfl⟩)

theorem loaded_cur (j : ℕ) : cur sb (s.loaded sb ip i) j = cur sb s j := by
  refine cur_eq (loaded_tab h hn ho) (fun jp hl => ?_) fun _ => (h.cur_eq j).symm
  by_cases hj : jp = ip
  · subst hj
    have hself : (s.loaded sb jp i).itable jp = ⟨ROOTDEV, i, 1, false, true, dino sb s i⟩ := setInode_itable_self
    obtain ⟨-, hij, -⟩ := hl
    rw [hself] at hij ⊢
    rw [h.cur_eq, ← hij]
  · have hother : (s.loaded sb ip i).itable jp = s.itable jp := setInode_itable_ne hj
    unfold Live at hl
    rw [hother] at hl
    exact absurd hl (h.dead jp j)

theorem loaded_blk (hsb : sb.Wf) : BlockInv sb (s.loaded sb ip i) ∅ :=
  h.blk.congr hsb (fun j _ => by rw [loaded_cur h hn ho]; exact ⟨rfl, rfl⟩) (fun _ _ => rfl) fun _ _ => rfl

omit hn in
/-- The pass ends with `iput`, which frees the orphan. -/
theorem pass_of_freed {s' : State} (hfree : (s.itable ip).ref = 0) (hF : Freed sb (s.loaded sb ip i) s' ip i) :
    Pass sb s { s'.note .endOp with tx := s'.tx - 1 } i := by
  have hi : ROOTINO ≠ i := fun he => h.linked (he ▸ ho)
  have h0 : (0 : Ip) ≠ ip := by
    rintro rfl
    rw [h.refs] at hfree
    cases hfree
  have hother : ∀ jp ≠ ip, s'.itable jp = s.itable jp := fun jp hj =>
    (hF.table jp hj).trans (setInode_itable_ne hj)
  have hdino : ∀ j < sb.ninodes, j ≠ i → dino sb s' j = dino sb s j := hF.dino
  have htype : (dino sb s' i).type = 0 := hF.type
  refine ⟨⟨⟨hF.tab.dev, hF.tab.inum, hF.tab.uniq, hF.tab.type⟩, ⟨hF.blk.own, hF.blk.metaMarked⟩, fun jp => ?_,
    fun jp => ?_, ?_, ?_, fun hr => ?_⟩, fun _ => htype, fun j hj hor => ?_, hF.disk⟩
  · by_cases hj : jp = ip
    · subst hj
      rw [if_neg h0.symm]
      exact hF.ref
    · rw [← h.refs jp]
      exact congrArg Inode.ref (hother jp hj)
  · by_cases hj : jp = ip
    · subst hj
      exact hF.locked
    · rw [← h.unlocked jp]
      exact congrArg Inode.locked (hother jp hj)
  · exact (congrArg Inode.valid (hother 0 h0)).trans h.stale
  · exact (congrArg Inode.inum (hother 0 h0)).trans h.root
  · have hsame : dino sb s' ROOTINO = dino sb s ROOTINO := hdino ROOTINO h.root_lt hi
    exact h.linked (hsame ▸ hr)
  · rcases hor with hne | hor
    · exact hdino j hj hne
    · exact hdino j hj fun he => hor (he ▸ ho)

end Loaded

theorem reclaim_spec (hsb : sb.Wf) (h : Booted sb s) (hn : i < sb.ninodes) :
    wp (reclaim sb ROOTDEV i) (fun _ s' => Pass sb s s' i) (fun _ => False) s := by
  by_cases ho : (dino sb s i).Orphan
  · obtain ⟨ip, hfree, hrun⟩ := reclaim_orphan h hn ho
    have hself : (s.loaded sb ip i).itable ip = ⟨ROOTDEV, i, 1, false, true, dino sb s i⟩ := setInode_itable_self
    have hlast : LastUnlinked (s.loaded sb ip i) ip := by
      rw [LastUnlinked, hself]
      exact ⟨rfl, rfl, ho.2⟩
    have hat : At (s.loaded sb ip i) ip i := by
      rw [At, hself]
      exact ⟨Nat.one_pos, rfl⟩
    have hput : wp (do iput sb ip; endOp) (fun _ s' => Pass sb s s' i) (fun _ => False) (s.loaded sb ip i) := by
      simp only [wp_bind, endOp, wp_modify]
      refine wp_imp (iput_spec hsb (loaded_tab h hn ho) (loaded_blk h hn ho hsb) hat fun _ => by rw [hself])
        fun _ s1 h1 => ?_
      obtain ⟨-, hF⟩ | ⟨hno, -⟩ := h1
      · exact pass_of_freed h ho hfree hF
      · exact absurd hlast hno
    simpa only [wp, hrun] using hput
  · simp only [wp, reclaim_other ho]
    exact ⟨h, fun hor => absurd hor ho, fun _ _ _ => rfl, fun _ _ => rfl⟩

/-- What the passes for the inodes below `k` have done. -/
structure Passed (sb : Superblock) (s s' : State) (k : ℕ) : Prop where
  booted : Booted sb s'
  freed : ∀ i, 0 < i → i < k → (dino sb s i).Orphan → (dino sb s' i).type = 0
  others : ∀ j < sb.ninodes, j = 0 ∨ k ≤ j ∨ ¬ (dino sb s j).Orphan → dino sb s' j = dino sb s j
  data : ∀ c, sb.datastart ≤ c → s'.disk c = s.disk c

theorem Passed.next {s1 s' : State} {k : ℕ} (h : Passed sb s s1 k) (hk : 0 < k) (hn : k < sb.ninodes) (hp : Pass sb s1 s' k) :
    Passed sb s s' (k + 1) := by
  refine ⟨hp.booted, fun i hi hik ho => ?_, fun j hj hor => ?_, fun c hc => (hp.data c hc).trans (h.data c hc)⟩
  · rcases Nat.lt_succ_iff_lt_or_eq.mp hik with hlt | rfl
    · rw [hp.others i (by omega) (.inl hlt.ne)]
      exact h.freed i hi hlt ho
    · refine hp.freed ?_
      rwa [h.others i hn (.inr (.inl le_rfl))]
  · have hsame : dino sb s1 j = dino sb s j := h.others j hj (hor.imp_right (Or.imp_left Nat.le_of_succ_le))
    refine (hp.others j hj ?_).trans hsame
    rcases hor with rfl | hkj | hor
    · exact .inl hk.ne
    · exact .inl (Nat.lt_of_succ_le hkj).ne'
    · exact .inr (hsame ▸ hor)

theorem Passed.gone {s' : State} {k : ℕ} (h : Passed sb s s' k) (hpos : 0 < i) (hi : i < k) (hn : i < sb.ninodes) :
    ¬ (dino sb s' i).Orphan := fun ho => by
  by_cases hor : (dino sb s i).Orphan
  · exact ho.1 (h.freed i hpos hi hor)
  · rw [h.others i hn (.inr (.inr hor))] at ho
    exact hor ho

theorem passes_spec (hsb : sb.Wf) (h : Booted sb s) {n : ℕ} (hn : n ≤ sb.ninodes - 1) :
    wp (repeatFrom (reclaim sb ROOTDEV) n 1) (fun _ s' => Passed sb s s' (1 + n)) (fun _ => False) s := by
  refine wp_repeatFrom (fun k s' => Passed sb s s' k) ⟨h, fun i hi hi1 => by omega, fun _ _ _ => rfl, fun _ _ => rfl⟩ fun k s1 hk hkn h1 => ?_
  have hlt : k < sb.ninodes := by omega
  exact wp_imp (reclaim_spec hsb h1.booted hlt) fun _ s' hp => h1.next hk hlt hp

end Reclaim

section First

variable {disk : ℕ → Block}

theorem first_itable (jp : Ip) : ((State.first disk).itable jp) =
    if jp = 0 then { Inode.zero with dev := ROOTDEV, inum := ROOTINO, ref := 1 } else Inode.zero := by
  split_ifs with hj
  · rw [hj]
    rfl
  · exact setInode_itable_ne hj

theorem first_booted (hsb : sb.Wf) (hown : BlockInv sb (.boot disk) ∅) (hroot : ROOTINO < sb.ninodes)
    (hlinked : ¬ (dino sb (.boot disk) ROOTINO).Orphan) : Booted sb (.first disk) := by
  have hT : TableInv sb (.first disk) :=
    (boot_tableInv disk).setInode (fun _ => ⟨rfl, hroot, fun jp _ hat => Nat.lt_irrefl 0 hat.1⟩) fun _ hv => absurd hv (by decide)
  have hdead : ∀ jp j, ¬ Live (State.first disk) jp j := fun jp j hl => by
    have hv := hl.2.2
    rw [first_itable] at hv
    split_ifs at hv <;> cases hv
  have hcur : ∀ j, cur sb (.first disk) j = cur sb (.boot disk) j := fun j => by
    rw [cur_dead fun jp => hdead jp j, boot_cur]
    rfl
  refine ⟨hT, ?_, fun jp => ?_, fun jp => ?_, rfl, rfl, hlinked⟩
  · exact hown.congr hsb (fun j _ => by rw [hcur]; exact ⟨rfl, rfl⟩) (fun _ _ => rfl) fun _ _ => rfl
  · rw [first_itable]
    split_ifs <;> rfl
  · rw [first_itable]
    split_ifs <;> rfl

end First

end Xv6.Fs
