import Xv6.Sanity.InodeOps

/-! References and locks of the inode table: `iget`, `idup`, `ilock`, `iunlock`,
`ialloc` and `iput`. None but the last two changes an inode as processes see it. -/

namespace Xv6.Fs

open Bytes Wp Ownership

/-- Entry `ip` is in use, for inode `i`. -/
def At (s : State) (ip : Ip) (i : ℕ) : Prop := 0 < (s.itable ip).ref ∧ (s.itable ip).inum = i

section Table

variable {sb : Superblock} {s s' : State} {ip jp : Ip} {i j : ℕ}

theorem Live.at (h : Live s ip i) : At s ip i := ⟨h.1, h.2.1⟩

theorem live_iff : Live s ip i ↔ At s ip i ∧ (s.itable ip).valid = true := and_assoc.symm

/-- Two tables over the same inodes, as far as processes can see. -/
theorem cur_eq (hT' : TableInv sb s') (hlive : ∀ ip, Live s' ip i → (s'.itable ip).d = cur sb s i)
    (hdead : (∀ ip, ¬ Live s' ip i) → dino sb s' i = cur sb s i) : cur sb s' i = cur sb s i := by
  by_cases h : ∃ ip, Live s' ip i
  · obtain ⟨ip, hip⟩ := h
    rw [hT'.cur_live hip, hlive ip hip]
  · rw [not_exists] at h
    rw [cur_dead h, hdead h]

/-- Replacing an entry by one for an inode of the file system that no other entry is for. -/
theorem TableInv.setInode (hT : TableInv sb s) {e : Inode}
    (he : 0 < e.ref → e.dev = ROOTDEV ∧ e.inum < sb.ninodes ∧ ∀ jp, jp ≠ ip → ¬ At s jp e.inum)
    (ht : 0 < e.ref → e.valid = true → e.d.type ≠ 0 ∧ (dino sb s e.inum).type = e.d.type) :
    TableInv sb (s.setInode ip e) := by
  refine ⟨fun jp hj => ?_, fun jp hj => ?_, fun jp kp hj hk hjk => ?_, fun jp j hl => ?_⟩
  · by_cases hji : jp = ip
    · subst hji
      rw [setInode_itable_self] at hj ⊢
      exact (he hj).1
    · rw [setInode_itable_ne hji] at hj ⊢
      exact hT.dev jp hj
  · by_cases hji : jp = ip
    · subst hji
      rw [setInode_itable_self] at hj ⊢
      exact (he hj).2.1
    · rw [setInode_itable_ne hji] at hj ⊢
      exact hT.inum jp hj
  · by_cases hji : jp = ip <;> by_cases hki : kp = ip
    · rw [hji, hki]
    · subst hji
      rw [setInode_itable_self] at hj hjk
      rw [setInode_itable_ne hki] at hk hjk
      exact absurd ⟨hk, hjk.symm⟩ ((he hj).2.2 kp hki)
    · subst hki
      rw [setInode_itable_self] at hk hjk
      rw [setInode_itable_ne hji] at hj hjk
      exact absurd ⟨hj, hjk⟩ ((he hk).2.2 jp hji)
    · rw [setInode_itable_ne hji] at hj hjk
      rw [setInode_itable_ne hki] at hk hjk
      exact hT.uniq jp kp hj hk hjk
  · unfold Live at hl
    by_cases hji : jp = ip
    · subst hji
      rw [setInode_itable_self] at hl ⊢
      obtain ⟨hr, rfl, hv⟩ := hl
      exact ht hr hv
    · rw [setInode_itable_ne hji] at hl ⊢
      exact hT.type jp j hl

theorem TableInv.not_at (hT : TableInv sb s) (h : At s ip i) (hj : jp ≠ ip) : ¬ At s jp i :=
  fun h' => hj (hT.uniq jp ip h'.1 h.1 (h'.2.trans h.2.symm))

/-- A new value of an entry with the same inode, reference or not, and contents. -/
structure SameEntry (e e' : Inode) : Prop where
  dev : e'.dev = e.dev
  inum : e'.inum = e.inum
  d : e'.d = e.d
  valid : e'.valid = e.valid

theorem TableInv.sameEntry (hT : TableInv sb s) {e : Inode} (he : SameEntry (s.itable ip) e)
    (hr : 0 < (s.itable ip).ref) : TableInv sb (s.setInode ip e) := by
  refine hT.setInode (fun _ => ⟨he.dev.trans (hT.dev ip hr), ?_, fun jp hj => ?_⟩) fun _ hv => ?_
  · rw [he.inum]
    exact hT.inum ip hr
  · rw [he.inum]
    exact hT.not_at ⟨hr, rfl⟩ hj
  · rw [he.inum, he.d]
    exact hT.type ip _ ⟨hr, rfl, he.valid ▸ hv⟩

theorem live_sameEntry {e : Inode} (he : SameEntry (s.itable ip) e) (hr : 0 < (s.itable ip).ref) (hr' : 0 < e.ref) :
    Live (s.setInode ip e) jp j ↔ Live s jp j := by
  unfold Live
  by_cases h : jp = ip
  · subst h
    rw [setInode_itable_self, he.inum, he.valid]
    simp [hr, hr']
  · rw [setInode_itable_ne h]

theorem TableInv.cur_sameEntry (hT : TableInv sb s) {e : Inode} (he : SameEntry (s.itable ip) e)
    (hr : 0 < (s.itable ip).ref) (hr' : 0 < e.ref) : cur sb (s.setInode ip e) j = cur sb s j := by
  refine cur_eq (hT.sameEntry he hr) (fun jp hl => ?_) fun hdead => ?_
  · rw [live_sameEntry he hr hr'] at hl
    rw [hT.cur_live hl]
    by_cases h : jp = ip
    · subst h
      rw [setInode_itable_self, he.d]
    · rw [setInode_itable_ne h]
  · rw [cur_dead fun jp hl => hdead jp ((live_sameEntry he hr hr').mpr hl)]
    rfl

/-- The state after `iget` of inode `i` in entry `ip`. -/
def State.got (s : State) (ip : Ip) (i : ℕ) : State :=
  if 0 < (s.itable ip).ref then s.setInode ip { s.itable ip with ref := (s.itable ip).ref + 1 }
  else s.setInode ip { s.itable ip with dev := ROOTDEV, inum := i, ref := 1, valid := false }

/-- Entry `ip` is the one `iget` of inode `i` takes. -/
def Avail (s : State) (ip : Ip) (i : ℕ) : Prop :=
  At s ip i ∨ ((s.itable ip).ref = 0 ∧ ∀ jp, ¬ At s jp i)

/-- `iget` fails only for want of an entry. -/
def noInodes (e : Stop) : Prop := e = .panic "iget: no inodes"

theorem iget_spec (hT : TableInv sb s) (i : ℕ) :
    wp (iget ROOTDEV i) (fun ip s' => Avail s ip i ∧ s' = s.got ip i) noInodes s := by
  simp only [iget, wp_bind, wp_get]
  split
  · rename_i ip hip
    have hfound := List.find?_some hip
    simp only [Bool.and_eq_true, decide_eq_true_eq, beq_iff_eq] at hfound
    obtain ⟨⟨hr, -⟩, hi⟩ := hfound
    simp only [setInode, wp_bind, wp_modify, wp_pure]
    exact ⟨Or.inl ⟨hr, hi⟩, by rw [State.got, if_pos hr]⟩
  · rename_i hnone
    have hno : ∀ jp, ¬ At s jp i := fun jp hj => by
      have := List.find?_eq_none.mp hnone jp (List.mem_finRange jp)
      simp [hj.1, hj.2, hT.dev jp hj.1] at this
    split
    · rename_i ip hip
      have hr : (s.itable ip).ref = 0 := by simpa using List.find?_some hip
      simp only [setInode, wp_bind, wp_modify, wp_pure]
      exact ⟨Or.inr ⟨hr, hno⟩, by rw [State.got, if_neg (by omega)]⟩
    · rfl

theorem iget_full : wp (iget ROOTDEV i) (fun _ _ => True) (fun _ => ∀ jp, (s.itable jp).ref ≠ 0) s := by
  simp only [iget, wp_bind, wp_get]
  split
  · trivial
  · split
    · trivial
    · rename_i hnone
      exact fun jp hr => List.find?_eq_none.mp hnone jp (List.mem_finRange jp) (beq_iff_eq.mpr hr)

theorem got_disk : (s.got ip i).disk = s.disk := by
  unfold State.got
  split_ifs <;> rfl

theorem got_aux : (s.got ip i).aux = s.aux := by
  unfold State.got
  split_ifs <;> rfl

theorem got_gen : (s.got ip i).gen = s.gen := congrArg Prod.snd got_aux

theorem got_itable_ne (h : jp ≠ ip) : (s.got ip i).itable jp = s.itable jp := by
  unfold State.got
  split_ifs <;> exact setInode_itable_ne h

section Got

variable (hT : TableInv sb s) (ha : Avail s ip i) (hi : i < sb.ninodes)

include ha in
theorem got_at : At (s.got ip i) ip i := by
  unfold At State.got
  rcases ha with h | h
  · rw [if_pos h.1, setInode_itable_self]
    exact ⟨Nat.succ_pos _, h.2⟩
  · rw [if_neg (by omega), setInode_itable_self]
    exact ⟨Nat.one_pos, rfl⟩

theorem got_ref : ((s.got ip i).itable jp).ref = (s.itable jp).ref + if jp = ip then 1 else 0 := by
  split_ifs with h
  · subst h
    unfold State.got
    split_ifs with hr
    · rw [setInode_itable_self]
    · rw [setInode_itable_self]
      simp only
      omega
  · rw [got_itable_ne h, Nat.add_zero]

/-- The entries in use stay, with one more reference for one of them. -/
theorem got_entry (hr : 0 < (s.itable jp).ref) :
    ((s.got ip i).itable jp) = { s.itable jp with ref := ((s.got ip i).itable jp).ref } := by
  by_cases h : jp = ip
  · subst h
    rw [State.got, if_pos hr, setInode_itable_self]
  · rw [got_itable_ne h]

include ha in
theorem live_got : Live (s.got ip i) jp j ↔ Live s jp j := by
  unfold State.got
  rcases ha with h | h
  · rw [if_pos h.1]
    exact live_sameEntry ⟨rfl, rfl, rfl, rfl⟩ h.1 (Nat.succ_pos _)
  · rw [if_neg (by omega)]
    unfold Live
    by_cases hj : jp = ip
    · subst hj
      rw [setInode_itable_self, h.1]
      simp
    · rw [setInode_itable_ne hj]

include hT ha hi in
theorem TableInv.got : TableInv sb (s.got ip i) := by
  unfold State.got
  rcases ha with h | h
  · rw [if_pos h.1]
    exact hT.sameEntry ⟨rfl, rfl, rfl, rfl⟩ h.1
  · rw [if_neg (by omega)]
    exact hT.setInode (fun _ => ⟨rfl, hi, fun jp _ => h.2 jp⟩) fun _ hv => absurd hv (by simp)

include hT ha hi in
theorem TableInv.cur_got : cur sb (s.got ip i) j = cur sb s j := by
  refine cur_eq (hT.got ha hi) (fun jp hl => ?_) fun hdead => ?_
  · rw [live_got ha] at hl
    rw [hT.cur_live hl, got_entry hl.1]
  · rw [cur_dead fun jp hl => hdead jp ((live_got ha).mpr hl)]
    exact dino_congr (by rw [got_disk])

include hT ha hi in
theorem BlockInv.got (hsb : sb.Wf) {pend : Set ℕ} (hB : BlockInv sb s pend) : BlockInv sb (s.got ip i) pend :=
  hB.congr hsb (fun j _ => by rw [hT.cur_got ha hi]; exact ⟨rfl, rfl⟩)
    (fun c _ => marked_congr (by rw [got_disk])) fun c _ => by rw [got_disk]

end Got

theorem idup_spec (h : At s ip i) :
    wp (idup ip) (fun r s' => r = ip ∧ s' = s.got ip i) (fun _ => False) s := by
  simp only [idup, getInode, setInode, wp_bind, wp_get, wp_modify, wp_pure]
  rw [State.got, if_pos h.1]
  exact ⟨trivial, rfl⟩

end Table

section Lock

variable {sb : Superblock} {s s' : State} {ip jp : Ip} {i j : ℕ}

/-- The state after `ilock(ip)`, and after `iunlock(ip)`. -/
def State.lock (sb : Superblock) (s : State) (ip : Ip) : State :=
  s.setInode ip { s.itable ip with locked := true, valid := true, d := cur sb s (s.itable ip).inum }

def State.unlock (s : State) (ip : Ip) : State := s.setInode ip { s.itable ip with locked := false }

theorem TableInv.dead (hT : TableInv sb s) (h : At s ip i) (hv : (s.itable ip).valid = false) (jp : Ip) :
    ¬ Live s jp i := fun hl => by
  obtain rfl := hT.uniq jp ip hl.1 h.1 (hl.2.1.trans h.2.symm)
  rw [hl.2.2] at hv
  cases hv

/-- `ilock` fails only on an inode that is not allocated. -/
def noType (e : Stop) : Prop := e = .panic "ilock: no type"

theorem ilock_spec (hT : TableInv sb s) (h : At s ip i) (hfree : (s.itable ip).locked = false) :
    wp (ilock sb ip) (fun _ s' => (cur sb s i).type ≠ 0 ∧ s' = s.lock sb ip)
      (fun e => (cur sb s i).type = 0 ∧ noType e) s := by
  have hr : ¬ (s.itable ip).ref < 1 := by
    have := h.1
    omega
  simp only [ilock, acquiresleep, getInode, setInode, bread, wp_bind, wp_get, wp_pure, if_neg hr, hfree,
    Bool.false_eq_true, if_false, wp_modify, setInode_itable_self]
  cases hv : (s.itable ip).valid with
  | true =>
    have hl : Live s ip i := ⟨h.1, h.2, hv⟩
    simp only [if_true, wp_pure]
    refine ⟨hT.cur_type hl, ?_⟩
    have hent : ({ s.itable ip with locked := true, valid := true, d := cur sb s (s.itable ip).inum } : Inode) =
        { s.itable ip with locked := true } := by
      rw [h.2, hT.cur_live hl, ← hv]
    rw [State.lock, hent, ← hv]
  | false =>
    have hcur : cur sb s i = dino sb s i := cur_dead (hT.dead h hv)
    simp only [Bool.false_eq_true, if_false, wp_bind, wp_get, wp_modify, wp_pure, h.2]
    rw [wp_ite]
    refine ⟨fun ht => ⟨by rw [hcur]; exact ht, rfl⟩, fun ht => ⟨by rw [hcur]; exact ht, ?_⟩⟩
    simp only [State.lock, State.setInode, h.2, Function.update_idem, hcur]
    rfl

/-- Taking a lock one holds. -/
theorem ilock_hang (hr : 0 < (s.itable ip).ref) (hl : (s.itable ip).locked = true) :
    wp (ilock sb ip) (fun _ _ => False) (fun e => e = .hang) s := by
  simp only [ilock, acquiresleep, getInode, wp_bind, wp_get, wp_pure, wp_ite]
  exact ⟨fun h0 => absurd hr (by omega), fun _ => ⟨fun _ => rfl, fun hn => absurd hl hn⟩⟩

theorem iunlock_spec (hr : 0 < (s.itable ip).ref) (hl : (s.itable ip).locked = true) :
    wp (iunlock ip) (fun _ s' => s' = s.unlock ip) (fun _ => False) s := by
  have hno : ¬ ((!(s.itable ip).locked || decide ((s.itable ip).ref < 1)) = true) := by
    rw [hl]
    simp
    omega
  simp only [iunlock, releasesleep, getInode, setInode, wp_bind, wp_get, wp_pure, if_neg hno, wp_modify]
  rfl

section Locked

variable (hT : TableInv sb s) (h : At s ip i) (ht : (cur sb s i).type ≠ 0)

include hT h ht in
theorem TableInv.lock : TableInv sb (s.lock sb ip) := by
  have htype : (dino sb s i).type = (cur sb s i).type := by
    by_cases hl : ∃ jp, Live s jp i
    · obtain ⟨jp, hl⟩ := hl
      rw [hT.cur_live hl]
      exact (hT.type jp i hl).2
    · rw [cur_dead (not_exists.mp hl)]
  refine hT.setInode (fun _ => ⟨hT.dev ip h.1, hT.inum ip h.1, fun jp hj => ?_⟩) fun _ _ => ?_
  · exact hT.not_at ⟨h.1, rfl⟩ hj
  · simp only [h.2]
    exact ⟨ht, htype⟩

include h in
theorem live_lock : Live (s.lock sb ip) jp j ↔ Live s jp j ∨ (jp = ip ∧ j = i) := by
  unfold Live State.lock
  by_cases hj : jp = ip
  · subst hj
    rw [setInode_itable_self, h.2]
    simp only [h.1, true_and, and_true]
    constructor
    · rintro rfl
      exact Or.inr rfl
    · rintro (⟨rfl, -⟩ | rfl)
      · rfl
      · rfl
  · rw [setInode_itable_ne hj]
    simp [hj]

include hT h ht in
theorem TableInv.cur_lock : cur sb (s.lock sb ip) j = cur sb s j := by
  refine cur_eq (hT.lock h ht) (fun jp hl => ?_) fun hdead => ?_
  · by_cases hj : jp = ip
    · subst hj
      have hji : j = i := hl.2.1.symm.trans (by rw [State.lock, setInode_itable_self]; exact h.2)
      rw [State.lock, setInode_itable_self, h.2, hji]
    · rw [live_lock h] at hl
      have hl : Live s jp j := hl.resolve_right fun hx => hj hx.1
      rw [State.lock, setInode_itable_ne hj, hT.cur_live hl]
  · rw [cur_dead fun jp hl => hdead jp ((live_lock h).mpr (Or.inl hl))]
    rfl

include hT h ht in
theorem BlockInv.lock (hsb : sb.Wf) {pend : Set ℕ} (hB : BlockInv sb s pend) : BlockInv sb (s.lock sb ip) pend :=
  hB.congr hsb (fun j _ => by rw [hT.cur_lock h ht]; exact ⟨rfl, rfl⟩) (fun _ _ => rfl) fun _ _ => rfl

include hT h in
theorem TableInv.unlock : TableInv sb (s.unlock ip) := hT.sameEntry ⟨rfl, rfl, rfl, rfl⟩ h.1

include h in
theorem live_unlock : Live (s.unlock ip) jp j ↔ Live s jp j := live_sameEntry ⟨rfl, rfl, rfl, rfl⟩ h.1 h.1

include hT h in
theorem TableInv.cur_unlock : cur sb (s.unlock ip) j = cur sb s j :=
  hT.cur_sameEntry ⟨rfl, rfl, rfl, rfl⟩ h.1 h.1

include hT h in
theorem BlockInv.unlock (hsb : sb.Wf) {pend : Set ℕ} (hB : BlockInv sb s pend) : BlockInv sb (s.unlock ip) pend :=
  hB.congr hsb (fun j _ => by rw [hT.cur_unlock h]; exact ⟨rfl, rfl⟩) (fun _ _ => rfl) fun _ _ => rfl

end Locked

end Lock

section Ialloc

variable {sb : Superblock} {s s' : State} {ip jp : Ip} {i j : ℕ} {type : Int16}

/-- The state after `ialloc` marked inode `i` as allocated. -/
def State.take (sb : Superblock) (s : State) (i : ℕ) (type : Int16) : State :=
  (s.write (sb.iblock i) (Dinode.put (s.disk (sb.iblock i)) (i % IPB) { Dinode.zero with type := type })).bear i

theorem take_dino : dino sb (s.take sb i type) j = if j = i then { Dinode.zero with type := type } else dino sb s j :=
  dino_writeInode _

theorem take_marked (hsb : sb.Wf) (hi : i < sb.ninodes) {c : ℕ} (hc : c < sb.size) :
    marked sb (s.take sb i type) c = marked sb s c := marked_write_inode hsb hi hc

theorem take_disk (hsb : sb.Wf) (hi : i < sb.ninodes) {c : ℕ} (hc : sb.datastart ≤ c) :
    (s.take sb i type).disk c = s.disk c := by
  have hlt := iblock_lt hsb hi
  refine write_disk_ne ?_
  rw [Superblock.datastart] at hc
  generalize sb.size / BPB = x at hc
  omega

/-- A free inode has no valid copy in the table. -/
theorem TableInv.free_dead (hT : TableInv sb s) (hfree : (dino sb s i).type = 0) (ip : Ip) : ¬ Live s ip i := fun hl => by
  obtain ⟨h1, h2⟩ := hT.type ip i hl
  exact h1 (h2.symm.trans hfree)

section Taken

variable (hT : TableInv sb s) (hfree : (dino sb s i).type = 0)

include hT hfree

theorem TableInv.take : TableInv sb (s.take sb i type) where
  dev := hT.dev
  inum := hT.inum
  uniq := hT.uniq
  type := fun ip j hl => by
    have hl : Live s ip j := hl
    have hji : j ≠ i := by
      rintro rfl
      exact hT.free_dead hfree ip hl
    rw [take_dino, if_neg hji]
    exact hT.type ip j hl

theorem TableInv.cur_take : cur sb (s.take sb i type) j =
    if j = i then { Dinode.zero with type := type } else cur sb s j := by
  split_ifs with hj
  · subst hj
    have hdead : ∀ ip, ¬ Live (s.take sb j type) ip j := hT.free_dead hfree
    rw [cur_dead hdead, take_dino, if_pos rfl]
  · exact cur_congr rfl (by rw [take_dino, if_neg hj])

/-- Neither a free inode nor a new one owns blocks. -/
theorem TableInv.owner_take (hsb : sb.Wf) (hi : i < sb.ninodes) {pend : Set ℕ} (hB : BlockInv sb s pend) (x : Slot) :
    owner sb (s.take sb i type) x = owner sb s x := by
  by_cases hx : x.inum = i
  · have hcuri : (cur sb s x.inum).type = 0 := by rw [hx, cur_dead (hT.free_dead hfree)]; exact hfree
    refine Eq.trans ?_ (slotAddr_free hcuri).symm
    cases x with
    | direct j k =>
      obtain rfl : j = i := hx
      simp [owner, slotAddr, hT.cur_take hfree, Dinode.zero]
    | entry j k =>
      obtain rfl : j = i := hx
      simp [owner, slotAddr, hT.cur_take hfree, Dinode.zero]
  · refine slotAddr_congr_at (fun _ => ?_) fun hlt ht hind => ?_
    · rw [hT.cur_take hfree, if_neg hx]
      exact ⟨rfl, rfl⟩
    · exact take_disk hsb hi (hB.own.owned (indirect_owned hlt ht hind)).1.1

theorem BlockInv.take (hsb : sb.Wf) (hi : i < sb.ninodes) {pend : Set ℕ} (hB : BlockInv sb s pend) :
    BlockInv sb (s.take sb i type) pend where
  own := hB.own.congr (hT.owner_take hfree hsb hi hB) fun c hc => take_marked hsb hi hc.2
  metaMarked := fun c hc => by
    have hsize := hsb.size
    rw [take_marked hsb hi (by omega)]
    exact hB.metaMarked c hc

end Taken

theorem iallocFrom_spec (hT : TableInv sb s) (type : Int16) (n : ℕ) {inum : ℕ} (hpos : 0 < inum) :
    wp (iallocFrom sb ROOTDEV type n inum) (fun r s' => (r = none ∧ s' = s) ∨
      ∃ ip i, 0 < i ∧ i < sb.ninodes ∧ (dino sb s i).type = 0 ∧ Avail s ip i ∧ r = some ip ∧
        s' = (s.take sb i type).got ip i) noInodes s := by
  induction n generalizing inum with
  | zero => exact Or.inl ⟨rfl, rfl⟩
  | succ n ih =>
    rw [iallocFrom, wp_ite]
    refine ⟨fun hlt => ?_, fun _ => Or.inl ⟨rfl, rfl⟩⟩
    simp only [bread, wp_bind, wp_get, wp_pure]
    rw [wp_ite]
    refine ⟨fun hfree => ?_, fun _ => ih (by omega)⟩
    have hT1 : TableInv sb (s.take sb inum type) := hT.take hfree
    simp only [logWrite, wp_bind, wp_modify]
    refine wp_mono (iget_spec hT1 inum) (fun ip s1 h1 => ?_) fun _ he => he
    obtain ⟨ha, rfl⟩ := h1
    exact Or.inr ⟨ip, inum, hpos, hlt, hfree, ha, rfl, rfl⟩

theorem ialloc_spec (hT : TableInv sb s) (type : Int16) :
    wp (ialloc sb ROOTDEV type) (fun r s' => (r = none ∧ s' = s) ∨
      ∃ ip i, 0 < i ∧ i < sb.ninodes ∧ (dino sb s i).type = 0 ∧ Avail s ip i ∧ r = some ip ∧
        s' = (s.take sb i type).got ip i) noInodes s :=
  iallocFrom_spec hT type _ Nat.one_pos

end Ialloc

section Iput

variable {sb : Superblock} {s s' : State} {ip jp : Ip} {i j : ℕ}

/-- The state after a reference was dropped. -/
def State.drop (s : State) (ip : Ip) : State :=
  (s.note .iput).setInode ip { s.itable ip with ref := (s.itable ip).ref - 1 }

/-- The reference dropped is the last one to an inode without links. -/
def LastUnlinked (s : State) (ip : Ip) : Prop :=
  (s.itable ip).ref = 1 ∧ (s.itable ip).valid = true ∧ (s.itable ip).d.nlink = 0

/-- Inode `i`, in entry `ip`, was freed with its blocks and the entry given up. -/
structure Freed (sb : Superblock) (s s' : State) (ip : Ip) (i : ℕ) : Prop where
  tab : TableInv sb s'
  blk : BlockInv sb s' ∅
  table : ∀ jp, jp ≠ ip → s'.itable jp = s.itable jp
  ref : (s'.itable ip).ref = 0
  locked : (s'.itable ip).locked = false
  type : (dino sb s' i).type = 0
  dino : ∀ j < sb.ninodes, j ≠ i → dino sb s' j = dino sb s j
  disk : ∀ c, sb.datastart ≤ c → s'.disk c = s.disk c
  owner : ∀ x, owner sb s' x = if x.inum = i then none else owner sb s x
  aux : s'.aux = s.aux

theorem TableInv.note (hT : TableInv sb s) (e : TxEvent) : TableInv sb (s.note e) := ⟨hT.dev, hT.inum, hT.uniq, hT.type⟩

theorem TableInv.drop (hT : TableInv sb s) (h : At s ip i) : TableInv sb (s.drop ip) :=
  (hT.note .iput).sameEntry (e := { s.itable ip with ref := (s.itable ip).ref - 1 }) ⟨rfl, rfl, rfl, rfl⟩ h.1

theorem drop_itable_ne (h : jp ≠ ip) : (s.drop ip).itable jp = s.itable jp := setInode_itable_ne h

theorem drop_ref : ((s.drop ip).itable jp).ref = (s.itable jp).ref - if jp = ip then 1 else 0 := by
  split_ifs with h
  · rw [h, State.drop, setInode_itable_self]
  · rw [drop_itable_ne h, Nat.sub_zero]

theorem drop_entry : (s.drop ip).itable jp = { s.itable jp with ref := ((s.drop ip).itable jp).ref } := by
  by_cases h : jp = ip
  · rw [h, State.drop, setInode_itable_self]
  · rw [drop_itable_ne h]

/-- With the last reference goes the copy in the table: what is left is the disk. -/
theorem TableInv.cur_drop (hT : TableInv sb s) (h : At s ip i) :
    cur sb (s.drop ip) j = if (s.itable ip).ref = 1 ∧ j = i then dino sb s j else cur sb s j := by
  split_ifs with hlast
  · obtain ⟨hr, rfl⟩ := hlast
    refine (cur_dead fun jp hl => ?_).trans rfl
    by_cases hj : jp = ip
    · subst hj
      have := hl.1
      rw [drop_ref, if_pos rfl, hr] at this
      omega
    · unfold Live at hl
      rw [drop_itable_ne hj] at hl
      exact hT.not_at h hj ⟨hl.1, hl.2.1⟩
  · by_cases hr : (s.itable ip).ref = 1
    · have hji : j ≠ i := fun he => hlast ⟨hr, he⟩
      have hlive : ∀ jp, Live (s.drop ip) jp j ↔ Live s jp j := fun jp => by
        unfold Live
        by_cases hj : jp = ip
        · subst hj
          rw [drop_entry]
          simp [h.2, hji.symm]
        · rw [drop_itable_ne hj]
      refine cur_eq (hT.drop h) (fun jp hl => ?_) fun hdead => ?_
      · rw [drop_entry, hT.cur_live ((hlive jp).mp hl)]
      · rw [cur_dead fun jp hl => hdead jp ((hlive jp).mpr hl)]
        rfl
    · have hpos := h.1
      exact hT.cur_sameEntry ⟨rfl, rfl, rfl, rfl⟩ h.1 (show 0 < (s.itable ip).ref - 1 by omega)

/-- Dropping a reference keeps the slots if the addresses are on disk when the last one goes. -/
theorem BlockInv.drop (hsb : sb.Wf) {pend : Set ℕ} (hB : BlockInv sb s pend) (hT : TableInv sb s) (h : At s ip i)
    (hclean : (s.itable ip).ref = 1 → (s.itable ip).valid = true →
      (dino sb s i).addrs = (s.itable ip).d.addrs) : BlockInv sb (s.drop ip) pend := by
  refine hB.congr hsb (fun j _ => ?_) (fun _ _ => rfl) fun _ _ => rfl
  rw [hT.cur_drop h]
  split_ifs with hlast
  · obtain ⟨hr, rfl⟩ := hlast
    cases hv : (s.itable ip).valid with
    | true =>
      have hl : Live s ip j := ⟨h.1, h.2, hv⟩
      rw [hT.cur_live hl]
      exact ⟨(hT.type ip j hl).2, hclean hr hv⟩
    | false =>
      rw [cur_dead (hT.dead h hv)]
      exact ⟨rfl, rfl⟩
  · exact ⟨rfl, rfl⟩

/-- The end of the freeing in `iput`: the emptied inode, still locked, becomes free. -/
def State.release (sb : Superblock) (s : State) (ip : Ip) : State :=
  let s1 := (s.setD ip { (s.itable ip).d with type := 0 }).update sb ip
  let s2 := s1.setInode ip { s1.itable ip with valid := false }
  s2.unlock ip

theorem release_itable_self : (s.release sb ip).itable ip =
    { s.itable ip with d := { (s.itable ip).d with type := 0 }, valid := false, locked := false } := by
  simp [State.release, State.unlock, State.update, State.setD]

theorem release_itable_ne (h : jp ≠ ip) : (s.release sb ip).itable jp = s.itable jp := by
  simp [State.release, State.unlock, State.update, State.setD, setInode_itable_ne h]

theorem release_disk : (s.release sb ip).disk = Function.update s.disk (sb.iblock (s.itable ip).inum)
    (Dinode.put (s.disk (sb.iblock (s.itable ip).inum)) ((s.itable ip).inum % IPB)
      { (s.itable ip).d with type := 0 }) := by
  simp [State.release, State.unlock, State.update, State.setD, State.write, State.poke]

theorem release_dino (h : At s ip i) : dino sb (s.release sb ip) j =
    if j = i then { (s.itable ip).d with type := 0 } else dino sb s j := by
  rw [← h.2, ← dino_writeInode (s := s)]
  exact dino_congr (by rw [release_disk]; rfl)

section GiveUp

/-- The entry and the inode of the last reference are given up. -/
def State.giveUp (sb : Superblock) (s : State) (ip : Ip) : State := (s.release sb ip).drop ip

variable (hT : TableInv sb s) (h : At s ip i) (hlast : (s.itable ip).ref = 1)

theorem giveUp_itable_ne (hj : jp ≠ ip) : (s.giveUp sb ip).itable jp = s.itable jp :=
  (setInode_itable_ne hj).trans (release_itable_ne hj)

include hlast in
theorem giveUp_ref : ((s.giveUp sb ip).itable ip).ref = 0 := by
  rw [State.giveUp, drop_ref, if_pos rfl, release_itable_self]
  simp [hlast]

include hlast in
theorem giveUp_used (hj : 0 < ((s.giveUp sb ip).itable jp).ref) :
    jp ≠ ip ∧ (s.giveUp sb ip).itable jp = s.itable jp := by
  have hne : jp ≠ ip := by
    rintro rfl
    rw [giveUp_ref hlast] at hj
    exact absurd hj (lt_irrefl 0)
  exact ⟨hne, giveUp_itable_ne hne⟩

include hT h hlast in
theorem live_giveUp : Live (s.giveUp sb ip) jp j ↔ Live s jp j ∧ j ≠ i := by
  constructor
  · intro hl
    obtain ⟨hjp, heq⟩ := giveUp_used hlast hl.1
    unfold Live at hl
    rw [heq] at hl
    refine ⟨hl, ?_⟩
    rintro rfl
    exact hT.not_at h hjp ⟨hl.1, hl.2.1⟩
  · rintro ⟨hl, hji⟩
    have hjp : jp ≠ ip := by
      rintro rfl
      exact hji (hl.2.1.symm.trans h.2)
    unfold Live
    rw [giveUp_itable_ne hjp]
    exact hl

include h in
theorem giveUp_dino : dino sb (s.giveUp sb ip) j =
    if j = i then { (s.itable ip).d with type := 0 } else dino sb s j := release_dino h

include hT h hlast in
theorem TableInv.giveUp : TableInv sb (s.giveUp sb ip) := by
  refine ⟨fun jp hj => ?_, fun jp hj => ?_, fun jp kp hj hk hjk => ?_, fun jp j hl => ?_⟩
  · have heq := (giveUp_used hlast hj).2
    rw [heq] at hj ⊢
    exact hT.dev jp hj
  · have heq := (giveUp_used hlast hj).2
    rw [heq] at hj ⊢
    exact hT.inum jp hj
  · have hej := (giveUp_used hlast hj).2
    have hek := (giveUp_used hlast hk).2
    rw [hej] at hj hjk
    rw [hek] at hk hjk
    exact hT.uniq jp kp hj hk hjk
  · obtain ⟨hl', hji⟩ := (live_giveUp hT h hlast).mp hl
    rw [(giveUp_used hlast hl.1).2, giveUp_dino h, if_neg hji]
    exact hT.type jp j hl'

include hT h hlast in
theorem giveUp_cur_self : (cur sb (s.giveUp sb ip) i).type = 0 := by
  rw [cur_dead fun jp hl => ((live_giveUp hT h hlast).mp hl).2 rfl, giveUp_dino h, if_pos rfl]

include hT h hlast in
theorem giveUp_cur_ne (hj : j ≠ i) : cur sb (s.giveUp sb ip) j = cur sb s j := by
  refine cur_eq (hT.giveUp h hlast) (fun jp hl => ?_) fun hdead => ?_
  · rw [(giveUp_used hlast hl.1).2, hT.cur_live ((live_giveUp hT h hlast).mp hl).1]
  · rw [giveUp_dino h, if_neg hj, cur_dead fun jp hl => hdead jp ((live_giveUp hT h hlast).mpr ⟨hl, hj⟩)]

include hT h in
theorem giveUp_disk (hsb : sb.Wf) {c : ℕ} (hc : sb.bmapstart ≤ c) : (s.giveUp sb ip).disk c = s.disk c := by
  have hlt := iblock_lt hsb (h.2 ▸ hT.inum ip h.1)
  have hcb : c ≠ sb.iblock (s.itable ip).inum := by
    rw [h.2]
    omega
  exact (congrFun release_disk c).trans (Function.update_of_ne hcb _ _)

end GiveUp

theorem bmapstart_le_datastart : sb.bmapstart ≤ sb.datastart := by
  rw [Superblock.datastart, Nat.add_assoc]
  exact Nat.le_add_right _ _

/-- An emptied inode that is given up is free. -/
theorem freed_of_emptied (hsb : sb.Wf) (he : Emptied sb s s' ip i) (h : At s ip i) (hlast : (s.itable ip).ref = 1) :
    Freed sb s (s'.giveUp sb ip) ip i := by
  have hat : At s' ip i := by
    unfold At
    rw [he.entry]
    exact h
  have hlast' : (s'.itable ip).ref = 1 := by
    rw [he.entry]
    exact hlast
  have hown : ∀ x, owner sb (s'.giveUp sb ip) x = owner sb s' x := fun x => by
    by_cases hx : x.inum = i
    · rw [he.owner, if_pos hx]
      exact slotAddr_free (hx ▸ giveUp_cur_self he.tab hat hlast')
    · refine slotAddr_congr_at (fun _ => ?_) fun hlt ht hind => ?_
      · rw [giveUp_cur_ne he.tab hat hlast' hx]
        exact ⟨rfl, rfl⟩
      · exact giveUp_disk he.tab hat hsb
          (bmapstart_le_datastart.trans (he.blk.own.owned (indirect_owned hlt ht hind)).1.1)
  have hmark : ∀ c < sb.size, marked sb (s'.giveUp sb ip) c = marked sb s' c := fun c hc =>
    marked_congr (giveUp_disk he.tab hat hsb (bblock_lt hc).1)
  refine ⟨he.tab.giveUp hat hlast', ⟨he.blk.own.congr hown fun c hc => hmark c hc.2, fun c hc => ?_⟩,
    fun jp hj => (giveUp_itable_ne hj).trans (he.table jp hj), giveUp_ref hlast', ?_, ?_, fun j hj hji => ?_,
    fun c hc => ?_, fun x => (hown x).trans (he.owner x), he.aux⟩
  · have hsize := hsb.size
    rw [hmark c (by omega)]
    exact he.blk.metaMarked c hc
  · rw [State.giveUp, drop_entry, release_itable_self]
  · rw [giveUp_dino hat, if_pos rfl]
  · rw [giveUp_dino hat, if_neg hji, he.dino j hj, if_neg hji]
  · exact (giveUp_disk he.tab hat hsb (bmapstart_le_datastart.trans hc)).trans (he.disk c hc)

/-- `iput` frees the inode with the last reference if it has no links, and else drops the reference. -/
theorem iput_spec (hsb : sb.Wf) (hT : TableInv sb s) (hB : BlockInv sb s ∅) (h : At s ip i)
    (hfree : LastUnlinked s ip → (s.itable ip).locked = false) :
    wp (iput sb ip) (fun _ s' => (LastUnlinked s ip ∧ Freed sb s s' ip i) ∨ (¬ LastUnlinked s ip ∧ s' = s.drop ip))
      (fun _ => False) s := by
  simp only [iput, freeUnlinked, getInode, wp_bind, wp_get, wp_pure]
  rw [wp_ite]
  refine ⟨fun hlast => ?_, fun hlast => Or.inr ⟨hlast, rfl⟩⟩
  have hfree := hfree hlast
  simp only [acquiresleep, getInode, setInode, wp_bind, wp_get, wp_pure, hfree, Bool.false_eq_true, if_false, wp_modify]
  set s1 := s.setInode ip { s.itable ip with locked := true }
  have hself : s1.itable ip = { s.itable ip with locked := true } := setInode_itable_self
  have hl : Live s ip i := ⟨h.1, h.2, hlast.2.1⟩
  have hsame : SameEntry (s.itable ip) { s.itable ip with locked := true } := ⟨rfl, rfl, rfl, rfl⟩
  have hT1 : TableInv sb s1 := hT.sameEntry hsame h.1
  have hl1 : Live s1 ip i := (live_sameEntry hsame h.1 h.1).mpr hl
  have hcur : ∀ j, cur sb s1 j = cur sb s j := fun j => hT.cur_sameEntry hsame h.1 h.1
  have hB1 : BlockInv sb s1 ∅ := hB.congr hsb (fun j _ => by rw [hcur]; exact ⟨rfl, rfl⟩) (fun _ _ => rfl) fun _ _ => rfl
  refine wp_mono (itrunc_spec hsb hT1 hB1 hl1) (fun _ s2 he => ?_) fun _ he => he
  have hlast1 : (s1.itable ip).ref = 1 := by
    rw [hself]
    exact hlast.1
  have hF := freed_of_emptied hsb he hl1.at hlast1
  refine Or.inl ⟨hlast, ?_⟩
  have hown : ∀ x, owner sb s1 x = owner sb s x := owner_congr hB (fun j _ => by rw [hcur]; exact ⟨rfl, rfl⟩)
    fun _ _ => rfl
  exact ⟨hF.tab, hF.blk, fun jp hj => (hF.table jp hj).trans (setInode_itable_ne hj), hF.ref, hF.locked, hF.type,
    hF.dino, hF.disk, fun x => (hF.owner x).trans (by rw [hown]), hF.aux⟩

end Iput

end Xv6.Fs
