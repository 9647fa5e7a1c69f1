import Xv6.Lib.Ownership
import Xv6.Sanity.Blocks

/-! The inode table over the inodes on disk, and the slots that own blocks. `cur i`
is inode `i` as a process that locks it sees it: the copy in the table if there is
a valid one, else the inode on disk. -/

namespace Xv6.Fs

open Bytes Wp Ownership

/-- Entry `ip` of the inode table is in use and holds a valid copy of inode `i`. -/
def Live (s : State) (ip : Ip) (i : ℕ) : Prop :=
  0 < (s.itable ip).ref ∧ (s.itable ip).inum = i ∧ (s.itable ip).valid = true

instance (s : State) (ip : Ip) (i : ℕ) : Decidable (Live s ip i) := inferInstanceAs (Decidable (_ ∧ _ ∧ _))

def cur (sb : Superblock) (s : State) (i : ℕ) : Dinode :=
  match (List.finRange NINODE).find? fun ip => Live s ip i with
  | some ip => (s.itable ip).d
  | none => dino sb s i

structure TableInv (sb : Superblock) (s : State) : Prop where
  dev : ∀ ip, 0 < (s.itable ip).ref → (s.itable ip).dev = ROOTDEV
  inum : ∀ ip, 0 < (s.itable ip).ref → (s.itable ip).inum < sb.ninodes
  uniq : ∀ ip jp, 0 < (s.itable ip).ref → 0 < (s.itable jp).ref →
    (s.itable ip).inum = (s.itable jp).inum → ip = jp
  type : ∀ ip i, Live s ip i → (s.itable ip).d.type ≠ 0 ∧ (dino sb s i).type = (s.itable ip).d.type

section Cur

variable {sb : Superblock} {s s' : State} {ip jp : Ip} {i j : ℕ}

theorem cur_dead (h : ∀ ip, ¬ Live s ip i) : cur sb s i = dino sb s i := by
  unfold cur
  rw [List.find?_eq_none.mpr fun ip _ => by simpa using h ip]

theorem TableInv.cur_live (h : TableInv sb s) (hl : Live s ip i) : cur sb s i = (s.itable ip).d := by
  unfold cur
  split
  · rename_i jp hjp
    have hj : Live s jp i := by simpa using List.find?_some hjp
    rw [h.uniq jp ip hj.1 hl.1 (hj.2.1.trans hl.2.1.symm)]
  · rename_i hnone
    exact absurd hl (by simpa using List.find?_eq_none.mp hnone ip (List.mem_finRange ip))

/-- A change of the disk that leaves inode `i` alone. -/
theorem cur_congr (hT : s'.itable = s.itable) (hd : dino sb s' i = dino sb s i) : cur sb s' i = cur sb s i := by
  have hlive : ∀ ip, Live s' ip i ↔ Live s ip i := fun ip => by rw [Live, Live, hT]
  unfold cur
  simp only [hlive, hT, hd]

theorem TableInv.of_disk (h : TableInv sb s) (hT : s'.itable = s.itable)
    (hd : ∀ i < sb.ninodes, (dino sb s' i).type = (dino sb s i).type) : TableInv sb s' where
  dev := by rw [hT]; exact h.dev
  inum := by rw [hT]; exact h.inum
  uniq := by rw [hT]; exact h.uniq
  type := fun ip i hl => by
    unfold Live at hl
    rw [hT] at hl ⊢
    have hi : i < sb.ninodes := hl.2.1 ▸ h.inum ip hl.1
    rw [hd i hi]
    exact h.type ip i hl

/-- Entries that differ in the copy of the inode and the lock only. -/
theorem live_setInode {e : Inode} (hr : e.ref = (s.itable ip).ref) (hi : e.inum = (s.itable ip).inum)
    (hv : e.valid = (s.itable ip).valid) : Live (s.setInode ip e) jp j ↔ Live s jp j := by
  unfold Live
  by_cases h : jp = ip
  · subst h
    rw [setInode_itable_self, hr, hi, hv]
  · rw [setInode_itable_ne h]

/-- Assigning to a live inode changes that inode only. -/
theorem TableInv.cur_setD (h : TableInv sb s) (hl : Live s ip i) {e : Inode} (hr : e.ref = (s.itable ip).ref)
    (hi : e.inum = (s.itable ip).inum) (hv : e.valid = (s.itable ip).valid) :
    cur sb (s.setInode ip e) j = if j = i then e.d else cur sb s j := by
  have hlive : ∀ jp j, Live (s.setInode ip e) jp j ↔ Live s jp j := fun jp j => live_setInode hr hi hv
  unfold cur
  simp only [hlive]
  split_ifs with hj
  · subst hj
    split
    · rename_i jp hjp
      have hlj : Live s jp j := by simpa using List.find?_some hjp
      obtain rfl := h.uniq jp ip hlj.1 hl.1 (hlj.2.1.trans hl.2.1.symm)
      rw [setInode_itable_self]
    · rename_i hnone
      exact absurd hl (by simpa using List.find?_eq_none.mp hnone ip (List.mem_finRange ip))
  · split
    · rename_i jp hjp
      have hlj : Live s jp j := by simpa using List.find?_some hjp
      have hne : jp ≠ ip := by
        rintro rfl
        exact hj (hlj.2.1.symm.trans hl.2.1)
      rw [setInode_itable_ne hne]
    · rfl

theorem TableInv.setD (h : TableInv sb s) {e : Inode} (hd : e.dev = (s.itable ip).dev)
    (hr : e.ref = (s.itable ip).ref) (hi : e.inum = (s.itable ip).inum)
    (hv : e.valid = (s.itable ip).valid) (ht : e.d.type = (s.itable ip).d.type) :
    TableInv sb (s.setInode ip e) := by
  have hsame : ∀ jp, ((s.setInode ip e).itable jp).dev = (s.itable jp).dev ∧
      ((s.setInode ip e).itable jp).ref = (s.itable jp).ref ∧
      ((s.setInode ip e).itable jp).inum = (s.itable jp).inum ∧
      ((s.setInode ip e).itable jp).d.type = (s.itable jp).d.type := by
    intro jp
    by_cases hj : jp = ip
    · subst hj
      rw [setInode_itable_self]
      exact ⟨hd, hr, hi, ht⟩
    · rw [setInode_itable_ne hj]
      exact ⟨rfl, rfl, rfl, rfl⟩
  exact {
    dev := fun jp hj => by
      rw [(hsame jp).1]
      exact h.dev jp ((hsame jp).2.1 ▸ hj)
    inum := fun jp hj => by
      rw [(hsame jp).2.2.1]
      exact h.inum jp ((hsame jp).2.1 ▸ hj)
    uniq := fun jp kp hj hk hjk => by
      rw [(hsame jp).2.2.1, (hsame kp).2.2.1] at hjk
      exact h.uniq jp kp ((hsame jp).2.1 ▸ hj) ((hsame kp).2.1 ▸ hk) hjk
    type := fun jp j hl => by
      rw [(hsame jp).2.2.2]
      exact h.type jp j ((live_setInode hr hi hv).mp hl) }

end Cur

/-- An entry of `addrs` of an inode, or an entry of its indirect block. -/
inductive Slot where
  | direct (i : ℕ) (k : Fin (NDIRECT + 1))
  | entry (i : ℕ) (j : Fin NINDIRECT)
  deriving DecidableEq

/-- The inode of a slot. -/
def Slot.inum : Slot → ℕ
  | .direct i _ | .entry i _ => i

/-- The block a slot owns: free inodes and zero addresses own nothing. -/
def slotAddr (sb : Superblock) (ino : ℕ → Dinode) (disk : ℕ → Block) : Slot → Option ℕ
  | .direct i k =>
    if i < sb.ninodes ∧ (ino i).type ≠ 0 ∧ (ino i).addrs k ≠ 0 then some ((ino i).addrs k).toNat else none
  | .entry i j =>
    let ind := (ino i).addrs (Fin.last NDIRECT)
    let addr := (disk ind.toNat).get32 (4 * j)
    if i < sb.ninodes ∧ (ino i).type ≠ 0 ∧ ind ≠ 0 ∧ addr ≠ 0 then some addr.toNat else none

/-- The slots of state `s`. -/
def owner (sb : Superblock) (s : State) : Slot → Option ℕ := slotAddr sb (cur sb s) s.disk

/-- Bitmap and slots agree on the data area, up to blocks taken and not yet stored,
and the blocks before it are marked. -/
structure BlockInv (sb : Superblock) (s : State) (pend : Set ℕ) : Prop where
  own : Owned (owner sb s) (marked sb s) (dataArea sb) pend
  metaMarked : ∀ b < sb.datastart, marked sb s b = true

section Slots

variable {sb : Superblock} {ino ino' : ℕ → Dinode} {disk disk' : ℕ → Block}

/-- A slot depends on the type and the addresses of its inode and on the indirect block. -/
theorem slotAddr_congr_at {x : Slot} (hino : x.inum < sb.ninodes →
      (ino' x.inum).type = (ino x.inum).type ∧ (ino' x.inum).addrs = (ino x.inum).addrs)
    (hdisk : x.inum < sb.ninodes → (ino x.inum).type ≠ 0 → (ino x.inum).addrs (Fin.last NDIRECT) ≠ 0 →
      disk' ((ino x.inum).addrs (Fin.last NDIRECT)).toNat = disk ((ino x.inum).addrs (Fin.last NDIRECT)).toNat) :
    slotAddr sb ino' disk' x = slotAddr sb ino disk x := by
  by_cases hi : x.inum < sb.ninodes
  · obtain ⟨htype, haddrs⟩ := hino hi
    cases x with
    | direct i k =>
      simp only [Slot.inum] at htype haddrs
      simp only [slotAddr, htype, haddrs]
    | entry i j =>
      simp only [Slot.inum] at hi htype haddrs hdisk
      simp only [slotAddr, htype, haddrs]
      by_cases ht : (ino i).type ≠ 0 ∧ (ino i).addrs (Fin.last NDIRECT) ≠ 0
      · rw [hdisk hi ht.1 ht.2]
      · have h1 : ∀ P : Prop, ¬ (i < sb.ninodes ∧ (ino i).type ≠ 0 ∧
            (ino i).addrs (Fin.last NDIRECT) ≠ 0 ∧ P) := fun P hP => ht ⟨hP.2.1, hP.2.2.1⟩
        rw [if_neg (h1 _), if_neg (h1 _)]
  · cases x with
    | direct i k => exact (if_neg fun h => hi h.1).trans (if_neg fun h => hi h.1).symm
    | entry i j => exact (if_neg fun h => hi h.1).trans (if_neg fun h => hi h.1).symm

theorem slotAddr_congr (hino : ∀ i < sb.ninodes, (ino' i).type = (ino i).type ∧ (ino' i).addrs = (ino i).addrs)
    (hdisk : ∀ i < sb.ninodes, (ino i).type ≠ 0 → (ino i).addrs (Fin.last NDIRECT) ≠ 0 →
      disk' ((ino i).addrs (Fin.last NDIRECT)).toNat = disk ((ino i).addrs (Fin.last NDIRECT)).toNat)
    (x : Slot) : slotAddr sb ino' disk' x = slotAddr sb ino disk x :=
  slotAddr_congr_at (hino x.inum) (hdisk x.inum)

/-- A free inode owns nothing. -/
theorem slotAddr_free {x : Slot} (h : (ino x.inum).type = 0) : slotAddr sb ino disk x = none := by
  cases x with
  | direct i k => exact if_neg fun hp => hp.2.1 h
  | entry i j => exact if_neg fun hp => hp.2.1 h

end Slots

end Xv6.Fs
