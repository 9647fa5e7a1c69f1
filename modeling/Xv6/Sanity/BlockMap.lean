import Xv6.Sanity.Slots

/-! `bmap`: what taking a block, storing it in an inode and storing it in an indirect
block do to the slots, and that a whole `bmap` only ever adds blocks. -/

namespace Xv6.Fs

open Bytes Wp Ownership

section Steps

variable {sb : Superblock} {s : State} {ip : Ip} {i b : ℕ}

theorem TableInv.live_lt (hT : TableInv sb s) (hl : Live s ip i) : i < sb.ninodes := hl.2.1 ▸ hT.inum ip hl.1

theorem TableInv.cur_type (hT : TableInv sb s) (hl : Live s ip i) : (cur sb s i).type ≠ 0 := by
  rw [hT.cur_live hl]
  exact (hT.type ip i hl).1

/-- The slots of a live inode. -/
theorem TableInv.owner_direct (hT : TableInv sb s) (hl : Live s ip i) (k : Fin (NDIRECT + 1)) :
    owner sb s (.direct i k) =
      if (s.itable ip).d.addrs k = 0 then none else some ((s.itable ip).d.addrs k).toNat := by
  have hi := hT.live_lt hl
  have ht := hT.cur_type hl
  rw [owner, slotAddr, hT.cur_live hl] at *
  by_cases h : (s.itable ip).d.addrs k = 0 <;> simp [hi, h, ht]

theorem TableInv.owner_entry (hT : TableInv sb s) (hl : Live s ip i) (j : Fin NINDIRECT)
    (hind : (s.itable ip).d.addrs (Fin.last NDIRECT) ≠ 0) :
    owner sb s (.entry i j) =
      if (s.disk ((s.itable ip).d.addrs (Fin.last NDIRECT)).toNat).get32 (4 * j) = 0 then none
      else some ((s.disk ((s.itable ip).d.addrs (Fin.last NDIRECT)).toNat).get32 (4 * j)).toNat := by
  have hi := hT.live_lt hl
  have ht := hT.cur_type hl
  simp only [owner, slotAddr, hT.cur_live hl] at *
  by_cases h : (s.disk ((s.itable ip).d.addrs (Fin.last NDIRECT)).toNat).get32 (4 * j) = 0 <;>
    simp [hi, h, ht, hind]

/-- Indirect blocks are blocks of the data area. -/
theorem indirect_owned {j : ℕ} (hj : j < sb.ninodes) (ht : (cur sb s j).type ≠ 0)
    (hind : (cur sb s j).addrs (Fin.last NDIRECT) ≠ 0) :
    owner sb s (.direct j (Fin.last NDIRECT)) = some ((cur sb s j).addrs (Fin.last NDIRECT)).toNat := by
  rw [owner, slotAddr, if_pos ⟨hj, ht, hind⟩]

section Alloc

variable (hsb : sb.Wf) (hb : b ∈ dataArea sb)

include hsb hb

theorem alloc_dino {j : ℕ} (hj : j < sb.ninodes) : dino sb (s.alloc sb b) j = dino sb s j := by
  have hge : sb.bmapstart ≤ b := by
    have := bblock_lt hb.2
    have := hb.1
    omega
  rw [State.alloc, dino_write_ge hsb hj hge, dino_write_ge hsb hj (bblock_lt hb.2).1]

theorem alloc_cur {j : ℕ} (hj : j < sb.ninodes) : cur sb (s.alloc sb b) j = cur sb s j :=
  cur_congr rfl (alloc_dino hsb hb hj)

omit hsb in
theorem alloc_marked {c : ℕ} (hc : c < sb.size) :
    marked sb (s.alloc sb b) c = Function.update (marked sb s) b true c := by
  rw [State.alloc, marked_write_data hc hb.1, marked_setBit]

omit hsb in
theorem alloc_disk {c : ℕ} (hc : sb.datastart ≤ c) (hcb : c ≠ b) : (s.alloc sb b).disk c = s.disk c := by
  have := bblock_lt hb.2
  rw [State.alloc, write_disk_ne hcb, write_disk_ne (by omega)]

omit hsb hb in
theorem alloc_disk_self : (s.alloc sb b).disk b = ByteVec.zero := write_disk_self

theorem alloc_owner {pend : Set ℕ} (hB : BlockInv sb s pend) (hfree : marked sb s b = false) (x : Slot) :
    owner sb (s.alloc sb b) x = owner sb s x := by
  refine slotAddr_congr (fun j hj => by rw [alloc_cur hsb hb hj]; exact ⟨rfl, rfl⟩) (fun j hj ht hind => ?_) x
  obtain ⟨harea, hm, -⟩ := hB.own.owned (indirect_owned hj ht hind)
  refine alloc_disk hb harea.1 fun he => ?_
  rw [he, hfree] at hm
  cases hm

theorem BlockInv.alloc {pend : Set ℕ} (hB : BlockInv sb s pend) (hfree : marked sb s b = false) :
    BlockInv sb (s.alloc sb b) (insert b pend) where
  own := (hB.own.alloc hb hfree).congr (alloc_owner hsb hb hB hfree) fun c hc => alloc_marked hb hc.2
  metaMarked := fun c hc => by
    have hlt : c < sb.size := lt_of_lt_of_le hc (hb.1.trans hb.2.le)
    have hcb : c ≠ b := by
      have := hb.1
      omega
    rw [alloc_marked hb hlt, Function.update_of_ne hcb]
    exact hB.metaMarked c hc

theorem TableInv.alloc (hT : TableInv sb s) : TableInv sb (s.alloc sb b) :=
  hT.of_disk rfl fun j hj => by rw [alloc_dino hsb hb hj]

end Alloc

/-- `ip->addrs[k] = addr`. -/
def State.setAddr (s : State) (ip : Ip) (k : Fin (NDIRECT + 1)) (addr : UInt32) : State :=
  s.setInode ip { s.itable ip with
    d := { (s.itable ip).d with addrs := Function.update (s.itable ip).d.addrs k addr } }

theorem setAddr_disk (k : Fin (NDIRECT + 1)) (addr : UInt32) : (s.setAddr ip k addr).disk = s.disk := rfl

theorem TableInv.setAddr (hT : TableInv sb s) (k : Fin (NDIRECT + 1)) (addr : UInt32) :
    TableInv sb (s.setAddr ip k addr) := hT.setD rfl rfl rfl rfl rfl

theorem TableInv.cur_setAddr (hT : TableInv sb s) (hl : Live s ip i) (k : Fin (NDIRECT + 1)) (addr : UInt32)
    (j : ℕ) : cur sb (s.setAddr ip k addr) j =
      if j = i then { cur sb s i with addrs := Function.update (cur sb s i).addrs k addr } else cur sb s j := by
  rw [hT.cur_live hl]
  exact hT.cur_setD hl (by rfl) (by rfl) (by rfl)

/-- Storing a new, zeroed block in an empty entry of `addrs`. -/
theorem TableInv.owner_setAddr (hsb : sb.Wf) (hT : TableInv sb s) (hl : Live s ip i) {k : Fin (NDIRECT + 1)}
    (hk : (s.itable ip).d.addrs k = 0) (hb : b ∈ dataArea sb) (hz : s.disk b = ByteVec.zero) :
    owner sb (s.setAddr ip k (UInt32.ofNat b)) = Function.update (owner sb s) (.direct i k) (some b) := by
  have hi := hT.live_lt hl
  have ht := hT.cur_type hl
  have hcur := hT.cur_setAddr hl k (UInt32.ofNat b)
  have hk' : (cur sb s i).addrs k = 0 := by rw [hT.cur_live hl]; exact hk
  have hne := ofNat_ne_zero_of_mem hsb hb
  have hnat := toNat_ofNat_of_mem hsb hb
  funext x
  cases x with
  | direct j k' =>
    by_cases hji : j = i
    · subst hji
      by_cases hkk : k' = k
      · subst hkk
        simp [owner, slotAddr, hcur, hi, ht, hne, hnat]
      · have hx : Slot.direct j k' ≠ Slot.direct j k := by simp [hkk]
        rw [Function.update_of_ne hx]
        simp only [owner, slotAddr, hcur, if_true, Function.update_of_ne hkk]
    · have hx : Slot.direct j k' ≠ Slot.direct i k := by simp [hji]
      rw [Function.update_of_ne hx]
      simp only [owner, slotAddr, hcur, if_neg hji]
  | entry j j' =>
    have hx : Slot.entry j j' ≠ Slot.direct i k := by simp
    rw [Function.update_of_ne hx]
    by_cases hji : j = i
    · subst hji
      by_cases hlast : Fin.last NDIRECT = k
      · -- the new indirect block is zero, so no entry owns anything before and after
        subst hlast
        simp [owner, slotAddr, hcur, hk', hnat, setAddr_disk, hz]
      · simp only [owner, slotAddr, hcur, if_true, Function.update_of_ne hlast]
        rfl
    · simp only [owner, slotAddr, hcur, if_neg hji]
      rfl

/-- Storing a block in an empty entry of the indirect block. -/
theorem TableInv.owner_setEntry (hsb : sb.Wf) (hT : TableInv sb s) (hB : BlockInv sb s {b}) (hl : Live s ip i)
    (hind : (s.itable ip).d.addrs (Fin.last NDIRECT) ≠ 0) (j : Fin NINDIRECT) (hb : b ∈ dataArea sb) :
    let ind := ((s.itable ip).d.addrs (Fin.last NDIRECT)).toNat
    owner sb (s.write ind ((s.disk ind).put32 (4 * j) (UInt32.ofNat b))) =
      Function.update (owner sb s) (.entry i j) (some b) := by
  intro ind
  have hi := hT.live_lt hl
  have ht := hT.cur_type hl
  have hne := ofNat_ne_zero_of_mem hsb hb
  have hnat := toNat_ofNat_of_mem hsb hb
  have hown : owner sb s (.direct i (Fin.last NDIRECT)) = some ind := by
    rw [hT.owner_direct hl, if_neg hind]
  have harea : ind ∈ dataArea sb := (hB.own.owned hown).1
  have hge : sb.bmapstart ≤ ind := by
    have := harea.1
    rw [Superblock.datastart] at this
    generalize sb.size / BPB = x at this
    omega
  set s' := s.write ind ((s.disk ind).put32 (4 * j) (UInt32.ofNat b))
  have hcur : ∀ j < sb.ninodes, cur sb s' j = cur sb s j := fun j hj =>
    cur_congr rfl (dino_write_ge hsb hj hge)
  have hcuri : cur sb s i = (s.itable ip).d := hT.cur_live hl
  have hj4 : ∀ k : Fin NINDIRECT, 4 * k.val + 4 ≤ BSIZE := fun k => by
    have hk : k.val < 256 := k.isLt
    change 4 * k.val + 4 ≤ 1024
    omega
  funext x
  cases x with
  | direct j' k =>
    rw [Function.update_of_ne (by simp)]
    by_cases hj' : j' < sb.ninodes
    · simp only [owner, slotAddr, hcur j' hj']
    · simp [owner, slotAddr, hj']
  | entry j' k =>
    by_cases hj' : j' < sb.ninodes
    · by_cases hji : j' = i
      · subst hji
        have hdisk : s'.disk ind = (s.disk ind).put32 (4 * j) (UInt32.ofNat b) := write_disk_self
        by_cases hkj : k = j
        · subst hkj
          rw [Function.update_self]
          simp only [owner, slotAddr, hcur j' hj', hcuri]
          rw [show ((s.itable ip).d.addrs (Fin.last NDIRECT)).toNat = ind from rfl, hdisk,
            ByteVec.get32_put32_self _ _ _ (hj4 k), hnat, if_pos ⟨hj', hcuri ▸ ht, hind, hne⟩]
        · have hne' : Slot.entry j' k ≠ Slot.entry j' j := by simp [hkj]
          rw [Function.update_of_ne hne']
          simp only [owner, slotAddr, hcur j' hj', hcuri]
          have hsep : k.val ≠ j.val := fun h => hkj (Fin.ext h)
          rw [show ((s.itable ip).d.addrs (Fin.last NDIRECT)).toNat = ind from rfl, hdisk,
            ByteVec.get32_put32_ne _ _ _ _ (by omega)]
      · rw [Function.update_of_ne (by simp [hji])]
        simp only [owner, slotAddr, hcur j' hj']
        by_cases ht' : (cur sb s j').type ≠ 0 ∧ (cur sb s j').addrs (Fin.last NDIRECT) ≠ 0
        · -- another inode's indirect block is another block
          have hother := indirect_owned hj' ht'.1 ht'.2
          have hblk : ((cur sb s j').addrs (Fin.last NDIRECT)).toNat ≠ ind := fun he => by
            have := hB.own.inj (he ▸ hother) hown
            simp [hji] at this
          rw [show s'.disk _ = s.disk _ from write_disk_ne hblk]
        · have h1 : ∀ P : Prop, ¬ (j' < sb.ninodes ∧ (cur sb s j').type ≠ 0 ∧
              (cur sb s j').addrs (Fin.last NDIRECT) ≠ 0 ∧ P) := fun P hP => ht' ⟨hP.2.1, hP.2.2.1⟩
          rw [if_neg (h1 _), if_neg (h1 _)]
    · rw [Function.update_of_ne (by
        rintro ⟨⟩
        exact hj' hi)]
      simp [owner, slotAddr, hj']

end Steps

/-- Whether the block of a slot holds file contents. -/
def Slot.Data : Slot → Prop
  | .direct _ k => k ≠ Fin.last NDIRECT
  | .entry _ _ => True

/-- From `s` to `s'` inode `i`, in entry `ip`, got blocks, and nothing else happened:
slots keep their blocks, these keep their contents, and new blocks are zero. -/
structure Extends (sb : Superblock) (s s' : State) (ip : Ip) (i : ℕ) : Prop where
  table : ∀ jp, jp ≠ ip → s'.itable jp = s.itable jp
  entry : ∃ a, s'.itable ip = { s.itable ip with d := { (s.itable ip).d with addrs := a } }
  dino : ∀ j < sb.ninodes, dino sb s' j = dino sb s j
  keep : ∀ x b, owner sb s x = some b → owner sb s' x = some b
  data : ∀ x b, owner sb s x = some b → x.Data → s'.disk b = s.disk b
  fresh : ∀ x b, owner sb s x = none → owner sb s' x = some b →
    x.inum = i ∧ (x.Data → s'.disk b = ByteVec.zero)
  aux : s'.aux = s.aux

section Extends

variable {sb : Superblock} {s s' s'' : State} {ip : Ip} {i : ℕ}

theorem Extends.refl : Extends sb s s ip i where
  table := fun _ _ => rfl
  entry := ⟨_, rfl⟩
  dino := fun _ _ => rfl
  keep := fun _ _ h => h
  data := fun _ _ _ _ => rfl
  fresh := fun _ _ h h' => by
    rw [h] at h'
    cases h'
  aux := rfl

theorem Extends.trans (h : Extends sb s s' ip i) (h' : Extends sb s' s'' ip i) : Extends sb s s'' ip i where
  table := fun jp hj => (h'.table jp hj).trans (h.table jp hj)
  entry := by
    obtain ⟨a, ha⟩ := h.entry
    obtain ⟨a', ha'⟩ := h'.entry
    exact ⟨a', by rw [ha', ha]⟩
  dino := fun j hj => (h'.dino j hj).trans (h.dino j hj)
  keep := fun x b hx => h'.keep x b (h.keep x b hx)
  data := fun x b hx hd => (h'.data x b (h.keep x b hx) hd).trans (h.data x b hx hd)
  fresh := fun x b hx hx' => by
    cases hmid : owner sb s' x with
    | none => exact h'.fresh x b hmid hx'
    | some c =>
      obtain rfl : c = b := Option.some.inj ((h'.keep x c hmid).symm.trans hx')
      obtain ⟨hi, hz⟩ := h.fresh x c hx hmid
      exact ⟨hi, fun hd => (h'.data x c hmid hd).trans (hz hd)⟩
  aux := h'.aux.trans h.aux

theorem Extends.live (h : Extends sb s s' ip i) {jp : Ip} {j : ℕ} : Live s' jp j ↔ Live s jp j := by
  unfold Live
  by_cases hj : jp = ip
  · subst hj
    obtain ⟨a, ha⟩ := h.entry
    rw [ha]
  · rw [h.table jp hj]

end Extends

instance : NeZero NINDIRECT := ⟨by decide⟩

/-- The slot of the `bn`-th block of a file. -/
def fileSlot (i bn : ℕ) : Slot :=
  if bn < NDIRECT then .direct i (Fin.ofNat (NDIRECT + 1) bn) else .entry i (Fin.ofNat NINDIRECT (bn - NDIRECT))

section Bmap

variable {sb : Superblock} {s : State} {ip : Ip} {i b : ℕ}

/-- What a call that may add blocks to inode `i` guarantees. -/
structure Grown (sb : Superblock) (s s' : State) (ip : Ip) (i : ℕ) : Prop where
  tab : TableInv sb s'
  blk : BlockInv sb s' ∅
  ext : Extends sb s s' ip i

/-- A new block, stored in an empty slot of inode `i` by a step that sets that slot
and changes no other block of the data area than the indirect one. -/
theorem Grown.of_attach (hsb : sb.Wf) (hB : BlockInv sb s ∅) (hb : b ∈ dataArea sb)
    (hfree : marked sb s b = false) {s' : State} {x : Slot} (hx : owner sb s x = none) (hxi : x.inum = i)
    (hT : TableInv sb s') (hown : owner sb s' = Function.update (owner sb s) x (some b))
    (hmark : ∀ c < sb.size, marked sb s' c = marked sb (s.alloc sb b) c)
    (hdino : ∀ j < sb.ninodes, dino sb s' j = dino sb s j)
    (hdisk : ∀ y c, owner sb s y = some c → y.Data → s'.disk c = s.disk c)
    (hzero : x.Data → s'.disk b = ByteVec.zero)
    (htab : ∀ jp, jp ≠ ip → s'.itable jp = s.itable jp)
    (hent : ∃ a, s'.itable ip = { s.itable ip with d := { (s.itable ip).d with addrs := a } })
    (haux : s'.aux = s.aux) : Grown sb s s' ip i := by
  have hB1 := hB.alloc hsb hb hfree
  have hx1 : owner sb (s.alloc sb b) x = none := (alloc_owner hsb hb hB hfree x).trans hx
  have hown1 : owner sb (s.alloc sb b) = owner sb s := funext (alloc_owner hsb hb hB hfree)
  have hO := hB1.own.attach (b := b) (Set.mem_insert b ∅) hx1
  rw [hown1] at hO
  have hempty : (insert b (∅ : Set ℕ)) \ {b} = ∅ := by simp
  rw [hempty] at hO
  refine ⟨hT, ⟨hO.congr (fun y => by rw [hown]) fun c hc => hmark c hc.2, fun c hc => ?_⟩,
    ⟨htab, hent, hdino, fun y c hy => ?_, hdisk, fun y c hy hy' => ?_, haux⟩⟩
  · have hlt : c < sb.size := lt_of_lt_of_le hc (hb.1.trans hb.2.le)
    rw [hmark c hlt]
    exact hB1.metaMarked c hc
  · have hyx : y ≠ x := by
      rintro rfl
      rw [hx] at hy
      cases hy
    rw [hown, Function.update_of_ne hyx]
    exact hy
  · by_cases hyx : y = x
    · subst hyx
      rw [hown, Function.update_self] at hy'
      obtain rfl := Option.some.inj hy'
      exact ⟨hxi, hzero⟩
    · rw [hown, Function.update_of_ne hyx, hy] at hy'
      cases hy'

variable (hsb : sb.Wf) (hT : TableInv sb s) (hB : BlockInv sb s ∅) (hl : Live s ip i)

include hsb hT hB hl

theorem addrOrAlloc_spec (k : Fin (NDIRECT + 1)) :
    wp (addrOrAlloc sb ip k) (fun r s' => Grown sb s s' ip i ∧
      (r ≠ 0 → (s'.itable ip).d.addrs k = r) ∧ (owner sb s (.direct i k) ≠ none → s' = s ∧ r ≠ 0))
      (fun _ => False) s := by
  have hrefl : Grown sb s s ip i := ⟨hT, hB, .refl⟩
  have hdirect := hT.owner_direct hl k
  simp only [addrOrAlloc, getInode, wp_bind, wp_get, wp_pure]
  rw [wp_ite]
  refine ⟨fun hk => ?_, fun hk => ⟨hrefl, fun _ => rfl, fun _ => ⟨rfl, hk⟩⟩⟩
  rw [if_pos hk] at hdirect
  rw [wp_bind]
  refine wp_mono (balloc_spec hB.metaMarked) (fun r s1 h => ?_) fun _ he => he
  rcases h with ⟨rfl, rfl⟩ | ⟨b, hb, hfree, rfl, rfl⟩
  · exact ⟨hrefl, fun h => absurd rfl h, fun h => absurd hdirect h⟩
  · rw [if_neg (ofNat_ne_zero_of_mem hsb hb)]
    have hT1 := hT.alloc hsb hb
    have hl1 : Live (s.alloc sb b) ip i := hl
    simp only [setD, getInode, setInode, wp_bind, wp_get, wp_pure, wp_modify]
    refine ⟨?_, fun _ => ?_, fun h => absurd hdirect h⟩
    · refine Grown.of_attach hsb hB hb hfree hdirect rfl (hT1.setAddr k _) ?_ (fun c _ => rfl)
        (fun j hj => alloc_dino hsb hb hj) (fun y c hy _ => ?_) (fun _ => alloc_disk_self)
        (fun jp hj => setInode_itable_ne hj) ⟨_, setInode_itable_self⟩ rfl
      · have hown1 : owner sb (s.alloc sb b) = owner sb s := funext (alloc_owner hsb hb hB hfree)
        rw [← hown1]
        exact hT1.owner_setAddr hsb hl1 hk hb alloc_disk_self
      · obtain ⟨hc, hm, -⟩ := hB.own.owned hy
        refine alloc_disk hb hc.1 fun he => ?_
        rw [he, hfree] at hm
        cases hm
    · simp

/-- The part of `bmap` behind the indirect block. -/
theorem bmapEntry_spec (j : Fin NINDIRECT) (hind : (s.itable ip).d.addrs (Fin.last NDIRECT) ≠ 0) :
    wp (bmapEntry sb ((s.itable ip).d.addrs (Fin.last NDIRECT)) j) (fun r s' => Grown sb s s' ip i ∧
      (r ≠ 0 → owner sb s' (.entry i j) = some r.toNat) ∧
      (owner sb s (.entry i j) ≠ none → s' = s ∧ r ≠ 0)) (fun _ => False) s := by
  have hrefl : Grown sb s s ip i := ⟨hT, hB, .refl⟩
  have hentry := hT.owner_entry hl j hind
  simp only [bmapEntry, bread, wp_bind, wp_get, wp_pure]
  rw [wp_ite]
  refine ⟨fun hk => ?_, fun hk => ⟨hrefl, fun _ => by rw [hentry, if_neg hk], fun _ => ⟨rfl, hk⟩⟩⟩
  rw [if_pos hk] at hentry
  rw [wp_bind]
  refine wp_mono (balloc_spec hB.metaMarked) (fun r s1 h => ?_) fun _ he => he
  rcases h with ⟨rfl, rfl⟩ | ⟨b, hb, hfree, rfl, rfl⟩
  · exact ⟨hrefl, fun h => absurd rfl h, fun h => absurd hentry h⟩
  · rw [if_neg (ofNat_ne_zero_of_mem hsb hb)]
    have hT1 := hT.alloc hsb hb
    have hB1 := hB.alloc hsb hb hfree
    rw [insert_empty_eq] at hB1
    have hl1 : Live (s.alloc sb b) ip i := hl
    have hown1 : owner sb (s.alloc sb b) = owner sb s := funext (alloc_owner hsb hb hB hfree)
    have hown := hT1.owner_setEntry hsb hB1 hl1 hind j hb
    simp only [logWrite, wp_bind, wp_get, wp_pure, wp_modify]
    set ind := ((s.itable ip).d.addrs (Fin.last NDIRECT)).toNat
    have hindOwn : owner sb s (.direct i (Fin.last NDIRECT)) = some ind := by
      rw [hT.owner_direct hl, if_neg hind]
    obtain ⟨hindArea, hindMarked, -⟩ := hB.own.owned hindOwn
    have hindb : b ≠ ind := by
      rintro rfl
      rw [hfree] at hindMarked
      cases hindMarked
    have hge : sb.bmapstart ≤ ind := by
      have := hindArea.1
      rw [Superblock.datastart] at this
      generalize sb.size / BPB = x at this
      omega
    rw [hown1] at hown
    refine ⟨?_, fun _ => ?_, fun h => absurd hentry h⟩
    · refine Grown.of_attach hsb hB hb hfree hentry rfl ?_ hown
        (fun c hc => marked_write_data hc hindArea.1)
        (fun j hj => (dino_write_ge hsb hj hge).trans (alloc_dino hsb hb hj)) (fun y c hy hd => ?_)
        (fun _ => (write_disk_ne hindb).trans alloc_disk_self) (fun _ _ => rfl) ⟨_, rfl⟩ rfl
      · exact hT1.of_disk rfl fun j hj => by rw [dino_write_ge hsb hj hge]
      · obtain ⟨hc, hm, -⟩ := hB.own.owned hy
        have hcb : c ≠ b := by
          rintro rfl
          rw [hfree] at hm
          cases hm
        -- contents and the indirect block are in different slots
        have hcind : c ≠ ind := by
          rintro rfl
          have := hB.own.inj hy hindOwn
          subst this
          exact hd rfl
        exact (write_disk_ne hcind).trans (alloc_disk hb hc.1 hcb)
    · rw [toNat_ofNat_of_mem hsb hb]
      exact (congrFun hown _).trans (Function.update_self _ _ _)

theorem bmap_spec {bn : ℕ} (hbn : bn < MAXFILE) :
    wp (bmap sb ip bn) (fun r s' => Grown sb s s' ip i ∧
      (r ≠ 0 → owner sb s' (fileSlot i bn) = some r.toNat) ∧
      (owner sb s (fileSlot i bn) ≠ none → s' = s ∧ r ≠ 0)) (fun _ => False) s := by
  unfold bmap
  split_ifs with h1 h2
  · have hslot : fileSlot i bn = .direct i ⟨bn, by omega⟩ := by
      rw [fileSlot, if_pos h1]
      congr 1
      exact Fin.ext (Nat.mod_eq_of_lt (by omega))
    rw [hslot]
    refine wp_mono (addrOrAlloc_spec hsb hT hB hl _) (fun r s' h => ?_) fun _ he => he
    obtain ⟨hg, hr, hsame⟩ := h
    refine ⟨hg, fun hne => ?_, hsame⟩
    rw [hg.tab.owner_direct (hg.ext.live.mpr hl), hr hne, if_neg hne]
  · have hslot : fileSlot i bn = .entry i ⟨bn - NDIRECT, h2⟩ := by
      rw [fileSlot, if_neg h1]
      congr 1
      exact Fin.ext (Nat.mod_eq_of_lt h2)
    rw [hslot, wp_bind]
    refine wp_mono (addrOrAlloc_spec hsb hT hB hl _) (fun r s' h => ?_) fun _ he => he
    obtain ⟨hg, hr, hsame⟩ := h
    -- an entry that is there has its indirect block
    have hindirect : owner sb s (.entry i ⟨bn - NDIRECT, h2⟩) ≠ none →
        owner sb s (.direct i (Fin.last NDIRECT)) ≠ none := by
      intro he hn
      rw [hT.owner_direct hl] at hn
      split_ifs at hn with hz
      simp [owner, slotAddr, hT.cur_live hl, hz] at he
    rw [wp_ite]
    refine ⟨fun hz => ⟨hg, fun hne => absurd rfl hne, fun he => ?_⟩, fun hne => ?_⟩
    · exact absurd hz (hsame (hindirect he)).2
    · have hl' : Live s' ip i := hg.ext.live.mpr hl
      have hentry := bmapEntry_spec hsb hg.tab hg.blk hl' ⟨bn - NDIRECT, h2⟩ (by rw [hr hne]; exact hne)
      rw [hr hne] at hentry
      refine wp_mono hentry (fun r' s'' h' => ?_) fun _ he => he
      obtain ⟨hg', hr', hsame'⟩ := h'
      refine ⟨⟨hg'.tab, hg'.blk, hg.ext.trans hg'.ext⟩, hr', fun he => ?_⟩
      obtain ⟨rfl, -⟩ := hsame (hindirect he)
      exact hsame' he
  · have hmax : MAXFILE = NDIRECT + NINDIRECT := rfl
    omega

end Bmap

end Xv6.Fs
