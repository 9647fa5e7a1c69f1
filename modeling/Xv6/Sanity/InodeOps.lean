import Xv6.Sanity.BlockMap

/-! What the other operations on inodes do to the inodes on disk, the table and the
slots: `iupdate`, `itrunc`, `iget`, `idup`, `ilock`, `ialloc` and `iput`. -/

namespace Xv6.Fs

open Bytes Wp Ownership

section Frame

variable {sb : Superblock} {s s' : State} {ip : Ip} {i : ℕ}

/-- A step that keeps the inodes as processes see them, the bits and the data area
keeps the block invariant. -/
theorem owner_congr {pend : Set ℕ} (hB : BlockInv sb s pend)
    (hcur : ∀ j < sb.ninodes, (cur sb s' j).type = (cur sb s j).type ∧ (cur sb s' j).addrs = (cur sb s j).addrs)
    (hdisk : ∀ c, sb.datastart ≤ c → s'.disk c = s.disk c) (x : Slot) : owner sb s' x = owner sb s x := by
  refine slotAddr_congr hcur (fun j hj ht hind => ?_) x
  exact hdisk _ (hB.own.owned (indirect_owned hj ht hind)).1.1

theorem BlockInv.congr {pend : Set ℕ} (hsb : sb.Wf) (hB : BlockInv sb s pend)
    (hcur : ∀ j < sb.ninodes, (cur sb s' j).type = (cur sb s j).type ∧ (cur sb s' j).addrs = (cur sb s j).addrs)
    (hmark : ∀ c < sb.size, marked sb s' c = marked sb s c)
    (hdisk : ∀ c, sb.datastart ≤ c → s'.disk c = s.disk c) : BlockInv sb s' pend where
  own := hB.own.congr (owner_congr hB hcur hdisk) fun c hc => hmark c hc.2
  metaMarked := fun c hc => by
    have hsize := hsb.size
    rw [hmark c (by omega)]
    exact hB.metaMarked c hc

/-- The state after `iupdate(ip)`. -/
def State.update (sb : Superblock) (s : State) (ip : Ip) : State :=
  s.write (sb.iblock (s.itable ip).inum)
    (Dinode.put (s.disk (sb.iblock (s.itable ip).inum)) ((s.itable ip).inum % IPB) (s.itable ip).d)

theorem iupdate_spec : wp (iupdate sb ip) (fun _ s' => s' = s.update sb ip) (fun _ => False) s := by
  simp only [iupdate, getInode, bread, logWrite, wp_bind, wp_get, wp_pure, wp_modify]
  rfl

variable (hsb : sb.Wf) (hT : TableInv sb s) (hl : Live s ip i)

include hl in
theorem update_dino (j : ℕ) : dino sb (s.update sb ip) j = if j = i then (s.itable ip).d else dino sb s j := by
  rw [State.update, hl.2.1, dino_writeInode]

include hT hl in
theorem update_cur (j : ℕ) : cur sb (s.update sb ip) j = cur sb s j := by
  by_cases hj : j = i
  · subst hj
    have hlive : Live (s.update sb ip) ip j := hl
    have hT' : TableInv sb (s.update sb ip) := hT.of_disk rfl fun k _ => by
      rw [update_dino hl]
      split_ifs with hk
      · rw [hk]
        exact (hT.type ip j hl).2.symm
      · rfl
    rw [hT'.cur_live hlive, hT.cur_live hl]
    rfl
  · refine cur_congr rfl ?_
    rw [update_dino hl, if_neg hj]

include hT hl in
theorem TableInv.update : TableInv sb (s.update sb ip) := hT.of_disk rfl fun k _ => by
  rw [update_dino hl]
  split_ifs with hk
  · rw [hk]
    exact (hT.type ip i hl).2.symm
  · rfl

include hsb hT hl in
theorem update_marked {c : ℕ} (hc : c < sb.size) : marked sb (s.update sb ip) c = marked sb s c := by
  rw [State.update, hl.2.1]
  exact marked_write_inode hsb (hT.live_lt hl) hc

include hsb hT hl in
theorem update_disk {c : ℕ} (hc : sb.datastart ≤ c) : (s.update sb ip).disk c = s.disk c := by
  have hlt := iblock_lt hsb (hT.live_lt hl)
  rw [State.update, hl.2.1]
  refine write_disk_ne ?_
  rw [Superblock.datastart] at hc
  generalize sb.size / BPB = x at hc
  omega

include hsb hT hl in
theorem update_owner {pend : Set ℕ} (hB : BlockInv sb s pend) (x : Slot) :
    owner sb (s.update sb ip) x = owner sb s x :=
  owner_congr hB (fun j _ => by rw [update_cur hT hl]; exact ⟨rfl, rfl⟩) (fun _ hc => update_disk hsb hT hl hc) x

include hsb hT hl in
theorem BlockInv.update {pend : Set ℕ} (hB : BlockInv sb s pend) : BlockInv sb (s.update sb ip) pend :=
  hB.congr hsb (fun j _ => by rw [update_cur hT hl]; exact ⟨rfl, rfl⟩) (fun _ hc => update_marked hsb hT hl hc)
    fun _ hc => update_disk hsb hT hl hc

end Frame

section SetD

variable {sb : Superblock} {s s' : State} {ip jp : Ip} {i j : ℕ} {d : Dinode}

/-- Assigning to fields of `*ip`, in the table only. -/
def State.setD (s : State) (ip : Ip) (d : Dinode) : State := s.setInode ip { s.itable ip with d := d }

theorem wp_setD {f : Dinode → Dinode} {Q : Unit → State → Prop} {E : Stop → Prop} :
    wp (setD ip f) Q E s ↔ Q () (s.setD ip (f (s.itable ip).d)) := Iff.rfl

theorem live_setD : Live (s.setD ip d) jp j ↔ Live s jp j := live_setInode rfl rfl rfl

theorem setD_itable_self : (s.setD ip d).itable ip = { s.itable ip with d := d } := setInode_itable_self

theorem setD_itable_ne (h : jp ≠ ip) : (s.setD ip d).itable jp = s.itable jp := setInode_itable_ne h

theorem TableInv.cur_assign (hT : TableInv sb s) (hl : Live s ip i) :
    cur sb (s.setD ip d) j = if j = i then d else cur sb s j := hT.cur_setD hl (by rfl) (by rfl) (by rfl)

theorem TableInv.assign (hT : TableInv sb s) (ht : d.type = (s.itable ip).d.type) :
    TableInv sb (s.setD ip d) := hT.setD rfl rfl rfl rfl ht

/-- Fields other than the type and the addresses do not matter for the slots. -/
theorem owner_assign (hT : TableInv sb s) (hl : Live s ip i) (ht : d.type = (s.itable ip).d.type)
    (ha : d.addrs = (s.itable ip).d.addrs) (x : Slot) : owner sb (s.setD ip d) x = owner sb s x := by
  refine slotAddr_congr (fun j _ => ?_) (fun _ _ _ _ => rfl) x
  rw [hT.cur_assign hl]
  split_ifs with hj
  · rw [hj, hT.cur_live hl]
    exact ⟨ht, ha⟩
  · exact ⟨rfl, rfl⟩

theorem BlockInv.assign {pend : Set ℕ} (hB : BlockInv sb s pend) (hT : TableInv sb s) (hl : Live s ip i)
    (ht : d.type = (s.itable ip).d.type) (ha : d.addrs = (s.itable ip).d.addrs) :
    BlockInv sb (s.setD ip d) pend where
  own := hB.own.congr (owner_assign hT hl ht ha) fun _ _ => rfl
  metaMarked := hB.metaMarked

end SetD

section Free

variable {sb : Superblock} {s s' : State} {ip : Ip} {i : ℕ}

/-- The state after `bfree(b)`. -/
def State.free (sb : Superblock) (s : State) (b : ℕ) : State :=
  s.write (sb.bblock b) (clearBit (s.disk (sb.bblock b)) (b % BPB))

theorem free_disk {b c : ℕ} (hb : b ∈ dataArea sb) (hc : sb.datastart ≤ c) : (s.free sb b).disk c = s.disk c :=
  write_disk_ne (by have := bblock_lt hb.2; omega)

theorem free_dino (hsb : sb.Wf) {b j : ℕ} (hb : b ∈ dataArea sb) (hj : j < sb.ninodes) :
    dino sb (s.free sb b) j = dino sb s j := dino_write_ge hsb hj (bblock_lt hb.2).1

theorem free_marked {b : ℕ} : marked sb (s.free sb b) = Function.update (marked sb s) b false := marked_clearBit

/-- Freeing the block of slot `x`, given the slots `val` still to be counted. -/
theorem bfree_owned {val : Slot → Option ℕ} {x : Slot} {b : UInt32}
    (hO : Owned val (marked sb s) (dataArea sb) ∅) (hx : val x = some b.toNat) :
    wp (bfree sb b) (fun _ s' => s' = s.free sb b.toNat ∧ b.toNat ∈ dataArea sb ∧
      Owned (Function.update val x none) (marked sb s') (dataArea sb) ∅) (fun _ => False) s := by
  obtain ⟨hb, hm, -⟩ := hO.owned hx
  refine wp_mono (bfree_spec hm) (fun _ s' hs' => ?_) fun _ he => he
  subst hs'
  refine ⟨rfl, hb, ?_⟩
  have h := hO.free hx
  rwa [← free_marked] at h

/-- The meta blocks stay marked when a data block is freed. -/
theorem free_metaMarked {b : ℕ} (hb : b ∈ dataArea sb) (hm : ∀ c < sb.datastart, marked sb s c = true) :
    ∀ c < sb.datastart, marked sb (s.free sb b) c = true := fun c hc => by
  have hcb : c ≠ b := by
    have := hb.1
    omega
  rw [free_marked, Function.update_of_ne hcb]
  exact hm c hc

end Free

section Itrunc

variable {sb : Superblock} {s s' s'' : State} {ip : Ip} {i : ℕ}

theorem wp_setAddr {k : Fin (NDIRECT + 1)} {a : UInt32} {Q : Unit → State → Prop} {E : Stop → Prop} :
    wp (setD ip fun d => { d with addrs := Function.update d.addrs k a }) Q E s ↔ Q () (s.setAddr ip k a) := Iff.rfl

/-- Whether slot `x` is entry `k` of inode `i`, or lies behind it. -/
def Behind (i : ℕ) (k : Fin (NDIRECT + 1)) : Slot → Prop
  | .direct j k' => j = i ∧ k' = k
  | .entry j _ => j = i ∧ k = Fin.last NDIRECT

instance (i : ℕ) (k : Fin (NDIRECT + 1)) (x : Slot) : Decidable (Behind i k x) := by
  unfold Behind
  split <;> infer_instance

theorem TableInv.owner_clearAddr (hT : TableInv sb s) (hl : Live s ip i) (k : Fin (NDIRECT + 1)) (x : Slot) :
    owner sb (s.setAddr ip k 0) x = if Behind i k x then none else owner sb s x := by
  have hcur := hT.cur_setAddr hl k 0
  have hdisk : (s.setAddr ip k 0).disk = s.disk := rfl
  cases x with
  | direct j k' =>
    by_cases hji : j = i
    · subst hji
      by_cases hkk : k' = k
      · subst hkk
        simp [owner, slotAddr, hcur, Behind]
      · simp [owner, slotAddr, hcur, Behind, hkk]
    · simp [owner, slotAddr, hcur, Behind, hji]
  | entry j j' =>
    by_cases hji : j = i
    · subst hji
      by_cases hlast : k = Fin.last NDIRECT
      · subst hlast
        simp [owner, slotAddr, hcur, Behind]
      · have hne : Fin.last NDIRECT ≠ k := fun h => hlast h.symm
        simp [owner, slotAddr, hcur, Behind, hlast, Function.update_of_ne hne, hdisk]
    · simp [owner, slotAddr, hcur, Behind, hji, hdisk]

/-- Entry `k` of inode `i` was cleared, and the blocks behind it freed. -/
structure Cleared (sb : Superblock) (s s' : State) (ip : Ip) (i : ℕ) (k : Fin (NDIRECT + 1)) : Prop where
  tab : TableInv sb s'
  blk : BlockInv sb s' ∅
  table : ∀ jp, jp ≠ ip → s'.itable jp = s.itable jp
  entry : s'.itable ip = { s.itable ip with d := { (s.itable ip).d with
    addrs := Function.update (s.itable ip).d.addrs k 0 } }
  dino : ∀ j < sb.ninodes, dino sb s' j = dino sb s j
  disk : ∀ c, sb.datastart ≤ c → s'.disk c = s.disk c
  owner : ∀ x, owner sb s' x = if Behind i k x then none else owner sb s x
  aux : s'.aux = s.aux

/-- The entry was zero already. -/
theorem Cleared.of_zero (hT : TableInv sb s) (hB : BlockInv sb s ∅) (hl : Live s ip i) {k : Fin (NDIRECT + 1)}
    (hz : (s.itable ip).d.addrs k = 0) : Cleared sb s s ip i k := by
  have hsame : s.setAddr ip k 0 = s := by
    rw [State.setAddr, State.setInode, ← hz, Function.update_eq_self, Function.update_eq_self]
  refine ⟨hT, hB, fun _ _ => rfl, ?_, fun _ _ => rfl, fun _ _ => rfl, fun x => ?_, rfl⟩
  · rw [← hz, Function.update_eq_self]
  · rw [← hT.owner_clearAddr hl, hsame]

/-- The blocks behind the entry have been freed; now it is set to zero. -/
theorem Cleared.of_freed (hl : Live s ip i) {k : Fin (NDIRECT + 1)}
    (hT : TableInv sb s') (htab : s'.itable = s.itable) (hdino : ∀ j < sb.ninodes, Fs.dino sb s' j = Fs.dino sb s j)
    (hdisk : ∀ c, sb.datastart ≤ c → s'.disk c = s.disk c) (haux : s'.aux = s.aux) (hB : BlockInv sb s ∅)
    (hO : Owned (fun x => if Behind i k x then none else Fs.owner sb s x) (marked sb s') (dataArea sb) ∅)
    (hm : ∀ c < sb.datastart, marked sb s' c = true) : Cleared sb s (s'.setAddr ip k 0) ip i k := by
  have hl' : Live s' ip i := by
    unfold Live
    rw [htab]
    exact hl
  have hsame : ∀ x, Fs.owner sb s' x = Fs.owner sb s x := owner_congr hB
    (fun j hj => by rw [cur_congr htab (hdino j hj)]; exact ⟨rfl, rfl⟩) hdisk
  have hown : ∀ x, Fs.owner sb (s'.setAddr ip k 0) x = if Behind i k x then none else Fs.owner sb s x := fun x => by
    rw [hT.owner_clearAddr hl', hsame]
  refine ⟨hT.setAddr k 0, ⟨hO.congr hown fun c _ => rfl, hm⟩, fun jp hj => ?_, ?_, hdino, hdisk, hown, haux⟩
  · rw [State.setAddr, setInode_itable_ne hj, htab]
  · rw [State.setAddr, setInode_itable_self, htab]

variable (hsb : sb.Wf) (hT : TableInv sb s) (hB : BlockInv sb s ∅) (hl : Live s ip i)

include hsb hT hB hl

theorem truncDirect_spec {k : Fin (NDIRECT + 1)} (hk : k ≠ Fin.last NDIRECT) :
    wp (truncDirect sb ip k) (fun _ s' => Cleared sb s s' ip i k) (fun _ => False) s := by
  have hdirect := hT.owner_direct hl k
  simp only [truncDirect, getInode, wp_bind, wp_get, wp_pure]
  rw [wp_ite]
  refine ⟨fun hz => .of_zero hT hB hl hz, fun hnz => ?_⟩
  rw [if_neg hnz] at hdirect
  rw [wp_bind]
  refine wp_mono (bfree_owned hB.own hdirect) (fun _ s1 hs1 => ?_) fun _ he => he
  obtain ⟨rfl, hb, hO⟩ := hs1
  rw [wp_setAddr]
  refine .of_freed hl (hT.of_disk rfl fun j hj => by rw [free_dino hsb hb hj]) rfl
    (fun j hj => free_dino hsb hb hj) (fun c hc => free_disk hb hc) rfl hB
    (hO.congr (fun x => ?_) fun _ _ => rfl) (free_metaMarked hb hB.metaMarked)
  -- only the slot itself lies behind a direct entry
  by_cases hx : x = .direct i k
  · subst hx
    simp [Behind]
  · rw [Function.update_of_ne hx, if_neg]
    cases x with
    | direct j k' =>
      rintro ⟨rfl, rfl⟩
      exact hx rfl
    | entry j j' => exact fun h => hk h.2

/-- The loop over the entries of the indirect block frees their blocks. -/
theorem truncEntries_spec (hind : (s.itable ip).d.addrs (Fin.last NDIRECT) ≠ 0) :
    wp (repeatFrom (truncEntry sb ((s.itable ip).d.addrs (Fin.last NDIRECT))) NINDIRECT 0) (fun _ s' =>
      s'.itable = s.itable ∧ (∀ j < sb.ninodes, dino sb s' j = dino sb s j) ∧
      (∀ c, sb.datastart ≤ c → s'.disk c = s.disk c) ∧ s'.aux = s.aux ∧
      (∀ c < sb.datastart, marked sb s' c = true) ∧
      Owned (fun x => if (∃ j, x = .entry i j) then none else owner sb s x) (marked sb s') (dataArea sb) ∅)
      (fun _ => False) s := by
  set ind := (s.itable ip).d.addrs (Fin.last NDIRECT)
  have hindArea : ind.toNat ∈ dataArea sb := by
    have := hT.owner_direct hl (Fin.last NDIRECT)
    rw [if_neg hind] at this
    exact (hB.own.owned this).1
  -- after `n` passes the first `n` entries no longer count
  let val (n : ℕ) : Slot → Option ℕ := fun x => if (∃ j : Fin NINDIRECT, j.val < n ∧ x = .entry i j) then none
    else owner sb s x
  refine wp_mono (wp_repeatFrom (fun n s' => s'.itable = s.itable ∧
    (∀ j < sb.ninodes, dino sb s' j = dino sb s j) ∧ (∀ c, sb.datastart ≤ c → s'.disk c = s.disk c) ∧
    s'.aux = s.aux ∧ (∀ c < sb.datastart, marked sb s' c = true) ∧
    Owned (val n) (marked sb s') (dataArea sb) ∅) ?_ ?_) (fun _ s' hs' => ?_) fun _ he => he
  · refine ⟨rfl, fun _ _ => rfl, fun _ _ => rfl, rfl, hB.metaMarked, hB.own.congr (fun x => ?_) fun _ _ => rfl⟩
    simp [val]
  · rintro n s1 - hn ⟨htab, hdino, hdisk, haux, hm, hO⟩
    have hn : n < NINDIRECT := by omega
    have hentry := hT.owner_entry hl ⟨n, hn⟩ hind
    have hval : ∀ x, Function.update (val n) (.entry i ⟨n, hn⟩) none x = val (n + 1) x := fun x => by
      by_cases hx : x = .entry i ⟨n, hn⟩
      · subst hx
        rw [Function.update_self]
        simp [val]
      · rw [Function.update_of_ne hx]
        have hiff : (∃ j : Fin NINDIRECT, j.val < n ∧ x = .entry i j) ↔
            ∃ j : Fin NINDIRECT, j.val < n + 1 ∧ x = .entry i j := by
          constructor
          · rintro ⟨j, hj, rfl⟩
            exact ⟨j, by omega, rfl⟩
          · rintro ⟨j, hj, rfl⟩
            have hjn : j.val ≠ n := fun he => hx (by rw [show j = ⟨n, hn⟩ from Fin.ext he])
            exact ⟨j, by omega, rfl⟩
        simp only [val, hiff]
    have hvaln : val n (.entry i ⟨n, hn⟩) = owner sb s (.entry i ⟨n, hn⟩) := by
      simp [val]
    simp only [truncEntry, bread, wp_bind, wp_get, wp_pure]
    rw [hdisk _ hindArea.1, wp_ite]
    refine ⟨fun hz => ?_, fun hnz => ?_⟩
    · refine ⟨htab, hdino, hdisk, haux, hm, hO.congr (fun x => ?_) fun _ _ => rfl⟩
      rw [if_pos hz] at hentry
      rw [← hval x]
      have hself : Function.update (val n) (.entry i ⟨n, hn⟩) none = val n :=
        Function.update_eq_self_iff.mpr (hvaln.trans hentry).symm
      rw [hself]
    · rw [if_neg hnz] at hentry
      refine wp_mono (bfree_owned hO (hvaln.trans hentry)) (fun _ s2 hs2 => ?_) fun _ he => he
      obtain ⟨rfl, hb, hO2⟩ := hs2
      exact ⟨htab, fun j hj => (free_dino hsb hb hj).trans (hdino j hj),
        fun c hc => (free_disk hb hc).trans (hdisk c hc), haux, free_metaMarked hb hm,
        hO2.congr (fun x => (hval x).symm) fun _ _ => rfl⟩
  · obtain ⟨htab, hdino, hdisk, haux, hm, hO⟩ := hs'
    refine ⟨htab, hdino, hdisk, haux, hm, hO.congr (fun x => ?_) fun _ _ => rfl⟩
    have hiff : (∃ j : Fin NINDIRECT, j.val < 0 + NINDIRECT ∧ x = .entry i j) ↔ ∃ j, x = .entry i j :=
      exists_congr fun j => and_iff_right (by have := j.isLt; omega)
    simp only [val, hiff]

theorem truncIndirect_spec :
    wp (truncIndirect sb ip) (fun _ s' => Cleared sb s s' ip i (Fin.last NDIRECT)) (fun _ => False) s := by
  have hdirect := hT.owner_direct hl (Fin.last NDIRECT)
  simp only [truncIndirect, getInode, wp_bind, wp_get, wp_pure]
  rw [wp_ite]
  refine ⟨fun hz => .of_zero hT hB hl hz, fun hnz => ?_⟩
  rw [if_neg hnz] at hdirect
  rw [wp_bind]
  refine wp_mono (truncEntries_spec hsb hT hB hl hnz) (fun _ s1 hs1 => ?_) fun _ he => he
  obtain ⟨htab, hdino, hdisk, haux, hm, hO⟩ := hs1
  have hval : (if (∃ j, Slot.direct i (Fin.last NDIRECT) = .entry i j) then none
      else owner sb s (.direct i (Fin.last NDIRECT))) = some ((s.itable ip).d.addrs (Fin.last NDIRECT)).toNat := by
    rw [if_neg (by simp)]
    exact hdirect
  rw [wp_bind]
  refine wp_mono (bfree_owned hO hval) (fun _ s2 hs2 => ?_) fun _ he => he
  obtain ⟨rfl, hb, hO2⟩ := hs2
  rw [wp_setAddr]
  have hdino2 : ∀ j < sb.ninodes, dino sb (s1.free sb ((s.itable ip).d.addrs (Fin.last NDIRECT)).toNat) j =
      dino sb s j := fun j hj => (free_dino hsb hb hj).trans (hdino j hj)
  refine .of_freed hl (hT.of_disk htab fun j hj => by rw [hdino2 j hj]) htab hdino2
    (fun c hc => (free_disk hb hc).trans (hdisk c hc)) haux hB (hO2.congr (fun x => ?_) fun _ _ => rfl)
    (free_metaMarked hb hm)
  cases x with
  | direct j k =>
    by_cases hx : Slot.direct j k = .direct i (Fin.last NDIRECT)
    · rw [hx, Function.update_self, if_pos ⟨rfl, rfl⟩]
    · have hnb : ¬ Behind i (Fin.last NDIRECT) (.direct j k) := fun h => hx (by rw [h.1, h.2])
      rw [Function.update_of_ne hx, if_neg hnb, if_neg (by simp)]
  | entry j k =>
    rw [Function.update_of_ne (by simp)]
    simp [Behind]

/-- The state of inode `i` after `itrunc`: no blocks, size zero, on disk as in the table. -/
structure Emptied (sb : Superblock) (s s' : State) (ip : Ip) (i : ℕ) : Prop where
  tab : TableInv sb s'
  blk : BlockInv sb s' ∅
  table : ∀ jp, jp ≠ ip → s'.itable jp = s.itable jp
  entry : s'.itable ip = { s.itable ip with d := { (s.itable ip).d with size := 0, addrs := fun _ => 0 } }
  dino : ∀ j < sb.ninodes, dino sb s' j =
    if j = i then { (s.itable ip).d with size := 0, addrs := fun _ => 0 } else dino sb s j
  disk : ∀ c, sb.datastart ≤ c → s'.disk c = s.disk c
  owner : ∀ x, owner sb s' x = if x.inum = i then none else owner sb s x
  aux : s'.aux = s.aux

omit hsb hT hB hl in
theorem behind_inum {k : Fin (NDIRECT + 1)} {x : Slot} (h : Behind i k x) : x.inum = i := by
  cases x with
  | direct j k' => exact h.1
  | entry j k' => exact h.1

theorem itrunc_spec : wp (itrunc sb ip) (fun _ s' => Emptied sb s s' ip i) (fun _ => False) s := by
  -- after `n` passes of the first loop the first `n` entries are clear
  let I (n : ℕ) (s' : State) : Prop := TableInv sb s' ∧ BlockInv sb s' ∅ ∧
    (∀ jp, jp ≠ ip → s'.itable jp = s.itable jp) ∧
    (∃ a, s'.itable ip = { s.itable ip with d := { (s.itable ip).d with addrs := a } } ∧
      ∀ k : Fin (NDIRECT + 1), k.val < n → a k = 0) ∧
    (∀ j < sb.ninodes, dino sb s' j = dino sb s j) ∧ (∀ c, sb.datastart ≤ c → s'.disk c = s.disk c) ∧
    (∀ x, x.inum ≠ i → owner sb s' x = owner sb s x) ∧ s'.aux = s.aux
  have hstep : ∀ n (k : Fin (NDIRECT + 1)) s1 s2, k.val = n → I n s1 → Cleared sb s1 s2 ip i k → I (n + 1) s2 := by
    rintro n k s1 s2 hkn ⟨-, -, htab, ⟨a, ha, hz⟩, hdino, hdisk, hown, haux⟩ hc
    refine ⟨hc.tab, hc.blk, fun jp hj => (hc.table jp hj).trans (htab jp hj),
      ⟨Function.update a k 0, ?_, fun k' hk' => ?_⟩, fun j hj => (hc.dino j hj).trans (hdino j hj),
      fun c h => (hc.disk c h).trans (hdisk c h), fun x hx => ?_, hc.aux.trans haux⟩
    · rw [hc.entry, ha]
    · by_cases hkk : k' = k
      · rw [hkk, Function.update_self]
      · have hne : k'.val ≠ k.val := fun h => hkk (Fin.ext h)
        rw [Function.update_of_ne hkk]
        exact hz k' (by omega)
    · rw [hc.owner, if_neg fun hb => hx (behind_inum hb)]
      exact hown x hx
  have hlive : ∀ n s1, I n s1 → Live s1 ip i := by
    rintro n s1 ⟨-, -, -, ⟨a, ha, -⟩, -⟩
    unfold Live
    rw [ha]
    exact hl
  have hloop : wp (repeatFrom (fun k => truncDirect sb ip (Fin.ofNat (NDIRECT + 1) k)) NDIRECT 0)
      (fun _ => I (0 + NDIRECT)) (fun _ => False) s := by
    refine wp_repeatFrom I ⟨hT, hB, fun _ _ => rfl, ⟨_, rfl, by simp⟩, fun _ _ => rfl, fun _ _ => rfl,
      fun _ _ => rfl, rfl⟩ fun k s1 _ hk hI => ?_
    have hkv : (Fin.ofNat (NDIRECT + 1) k).val = k := Nat.mod_eq_of_lt (by omega)
    have hne : Fin.ofNat (NDIRECT + 1) k ≠ Fin.last NDIRECT := fun h => by
      have := congrArg Fin.val h
      rw [hkv, Fin.val_last] at this
      omega
    exact wp_mono (truncDirect_spec hsb hI.1 hI.2.1 (hlive _ _ hI) hne)
      (fun _ s2 h2 => hstep k _ s1 s2 hkv hI h2) fun _ he => he
  rw [itrunc, wp_bind]
  refine wp_mono hloop (fun _ s1 hI => ?_) fun _ he => he
  rw [wp_bind]
  refine wp_mono (truncIndirect_spec hsb hI.1 hI.2.1 (hlive _ _ hI)) (fun _ s2 h2 => ?_) fun _ he => he
  obtain ⟨hT2, hB2, htab2, ⟨a, ha2, hz2⟩, hdino2, hdisk2, hown2, haux2⟩ :=
    hstep (0 + NDIRECT) (Fin.last NDIRECT) s1 s2 (Nat.zero_add _).symm hI h2
  obtain rfl : a = fun _ => 0 := funext fun k => hz2 k (by rw [Nat.zero_add]; exact k.isLt)
  have hl2 : Live s2 ip i := by
    unfold Live
    rw [ha2]
    exact hl
  -- the size goes to zero in the table, and then all of it to disk
  rw [wp_bind, wp_setD]
  set d : Dinode := { (s.itable ip).d with size := 0, addrs := fun _ => 0 } with hd
  have hd2 : ({ (s2.itable ip).d with size := 0 } : Dinode) = d := by rw [ha2]
  rw [hd2]
  have ht : d.type = (s2.itable ip).d.type := by rw [ha2]
  have ha : d.addrs = (s2.itable ip).d.addrs := by rw [ha2]
  have hT3 := hT2.assign ht
  have hl3 : Live (s2.setD ip d) ip i := live_setD.mpr hl2
  have hB3 := hB2.assign hT2 hl2 ht ha
  have he3 : (s2.setD ip d).itable ip = { s.itable ip with d := d } := by rw [setD_itable_self, ha2]
  refine wp_mono iupdate_spec (fun _ s4 h4 => ?_) fun _ he => he
  subst h4
  have hown : ∀ x, owner sb ((s2.setD ip d).update sb ip) x = owner sb s2 x := fun x =>
    (update_owner hsb hT3 hl3 hB3 x).trans (owner_assign hT2 hl2 ht ha x)
  refine ⟨hT3.update hl3, hB3.update hsb hT3 hl3, fun jp hj => ?_, he3, fun j hj => ?_, fun c hc => ?_,
    fun x => ?_, haux2⟩
  · exact (setD_itable_ne hj).trans (htab2 jp hj)
  · rw [update_dino hl3, he3]
    split_ifs with hji
    · rfl
    · exact hdino2 j hj
  · exact (update_disk hsb hT3 hl3 hc).trans (hdisk2 c hc)
  · rw [hown]
    split_ifs with hx
    · cases x with
      | direct j k =>
        obtain rfl : j = i := hx
        rw [hT2.owner_direct hl2, ← ha, if_pos rfl]
      | entry j k =>
        obtain rfl : j = i := hx
        simp [owner, slotAddr, hT2.cur_live hl2, ← ha, hd]
    · exact hown2 x hx

end Itrunc

end Xv6.Fs
