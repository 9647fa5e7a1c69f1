import Xv6.Sanity.FileData

/-! The file system as a set of nodes: for every inode its type, its link count and,
if it is a directory, its entries. `FsInv` is what holds of the file system wherever
no inode has unwritten changes, and here is how the operations on inodes change the
nodes. -/

namespace Xv6.Fs

open Bytes Wp Ownership

/-- An inode as the directory tree sees it; `gen` tells its incarnations apart. -/
structure Node where
  type : Int16
  nlink : Int16
  ents : List Dirent
  gen : ℕ
  deriving DecidableEq

/-- The entries of directory `i`, empty ones included. -/
def dirents (sb : Superblock) (s : State) (i : ℕ) : List Dirent :=
  (List.range ((cur sb s i).size.toNat / DIRENT)).map fun k => Dirent.decode (fileSlice sb s i (DIRENT * k) DIRENT)

def Node.free (gen : ℕ) : Node := ⟨0, 0, [], gen⟩

def node (sb : Superblock) (s : State) (i : ℕ) : Node :=
  if (cur sb s i).type = 0 then Node.free (s.gen i)
  else ⟨(cur sb s i).type, (cur sb s i).nlink, if (cur sb s i).type = T_DIR then dirents sb s i else [], s.gen i⟩

structure FsInv (sb : Superblock) (s : State) : Prop where
  wf : sb.Wf
  tab : TableInv sb s
  blk : BlockInv sb s ∅
  clean : ∀ i < sb.ninodes, cur sb s i = dino sb s i
  size : ∀ i < sb.ninodes, (cur sb s i).type ≠ 0 → (cur sb s i).size.toNat ≤ MAXFILE * BSIZE
  dense : ∀ i < sb.ninodes, (cur sb s i).type ≠ 0 → ∀ o < (cur sb s i).size.toNat,
    owner sb s (fileSlot i (o / BSIZE)) ≠ none
  whole : ∀ i < sb.ninodes, (cur sb s i).type = T_DIR → (cur sb s i).size.toNat % DIRENT = 0

section Node

variable {sb : Superblock} {s s' : State} {ip : Ip} {i j : ℕ}

theorem node_type : (node sb s i).type = (cur sb s i).type := by
  unfold node
  split_ifs with h
  · exact h.symm
  · rfl
  · rfl

theorem node_nlink (h : (cur sb s i).type ≠ 0) : (node sb s i).nlink = (cur sb s i).nlink := by
  rw [node, if_neg h]

theorem node_gen : (node sb s i).gen = s.gen i := by
  unfold node
  split_ifs <;> rfl

theorem node_ents_dir (h : (cur sb s i).type = T_DIR) : (node sb s i).ents = dirents sb s i := by
  have h0 : T_DIR ≠ 0 := by decide
  rw [node, if_neg (by rw [h]; exact h0), if_pos h]

/-- A node is determined by the inode, the contents up to its size and the generation. -/
theorem node_congr (hcur : cur sb s' i = cur sb s i) (hgen : s'.gen i = s.gen i)
    (hbytes : (cur sb s i).type = T_DIR → ∀ o < (cur sb s i).size.toNat, fileByte sb s' i o = fileByte sb s i o) :
    node sb s' i = node sb s i := by
  unfold node
  rw [hcur, hgen]
  split_ifs with h1 h2
  · rfl
  · congr 1
    unfold dirents
    rw [hcur]
    refine List.map_congr_left fun k hk => ?_
    have hk := List.mem_range.mp hk
    congr 1
    refine List.map_congr_left fun t ht => hbytes h2 _ ?_
    have ht := List.mem_range.mp ht
    have hdiv := Nat.div_mul_le_self (cur sb s i).size.toNat DIRENT
    have hmul : DIRENT * (k + 1) ≤ DIRENT * ((cur sb s i).size.toNat / DIRENT) := Nat.mul_le_mul_left _ hk
    rw [Nat.mul_comm] at hdiv
    rw [Nat.mul_add, Nat.mul_one] at hmul
    omega
  · rfl

/-- Steps in the inode table only, that leave the inodes as they are. -/
theorem FsInv.table (h : FsInv sb s) (hT : TableInv sb s') (hdisk : s'.disk = s.disk) (hgen : s'.gen = s.gen)
    (hcur : ∀ j < sb.ninodes, cur sb s' j = cur sb s j) :
    FsInv sb s' ∧ ∀ i < sb.ninodes, node sb s' i = node sb s i := by
  have hown : ∀ x, owner sb s' x = owner sb s x := owner_congr h.blk
    (fun j hj => by rw [hcur j hj]; exact ⟨rfl, rfl⟩) fun c _ => by rw [hdisk]
  have hdino : ∀ i, dino sb s' i = dino sb s i := fun i => dino_congr (by rw [hdisk])
  refine ⟨⟨h.wf, hT, h.blk.congr h.wf (fun j hj => by rw [hcur j hj]; exact ⟨rfl, rfl⟩)
    (fun c _ => marked_congr (by rw [hdisk])) fun c _ => by rw [hdisk], fun i hi => ?_, fun i hi => ?_,
    fun i hi => ?_, fun i hi => ?_⟩, fun i hi => ?_⟩
  · rw [hcur i hi, hdino]
    exact h.clean i hi
  · rw [hcur i hi]
    exact h.size i hi
  · simp only [hcur i hi, hown]
    exact h.dense i hi
  · rw [hcur i hi]
    exact h.whole i hi
  · exact node_congr (hcur i hi) (by rw [hgen])
      fun _ o _ => fileByte_congr (hown _) fun b _ => by rw [hdisk]

/-- An inode whose other fields were assigned, in the table and on disk. -/
theorem FsInv.update (h : FsInv sb s) (hl : Live s ip i) {d : Dinode} (ht : d.type = (cur sb s i).type)
    (hs : d.size = (cur sb s i).size) (ha : d.addrs = (cur sb s i).addrs) :
    FsInv sb ((s.setD ip d).update sb ip) ∧ ∀ j < sb.ninodes, node sb ((s.setD ip d).update sb ip) j =
      if j = i then { node sb s i with nlink := d.nlink } else node sb s j := by
  have hcuri := h.tab.cur_live hl
  have hi := h.tab.live_lt hl
  rw [hcuri] at ht hs ha
  have hT1 : TableInv sb (s.setD ip d) := h.tab.assign ht
  have hl1 : Live (s.setD ip d) ip i := live_setD.mpr hl
  have hB1 := h.blk.assign h.tab hl ht ha
  have hown : ∀ x, owner sb ((s.setD ip d).update sb ip) x = owner sb s x := fun x =>
    (update_owner h.wf hT1 hl1 hB1 x).trans (owner_assign h.tab hl ht ha x)
  have hcur : ∀ j, cur sb ((s.setD ip d).update sb ip) j = if j = i then d else cur sb s j := fun j =>
    (update_cur hT1 hl1 j).trans (h.tab.cur_assign hl)
  have hdino : ∀ j, dino sb ((s.setD ip d).update sb ip) j = if j = i then d else dino sb s j := fun j => by
    rw [update_dino hl1, setD_itable_self]
    rfl
  have hbyte : ∀ j o, fileByte sb ((s.setD ip d).update sb ip) j o = fileByte sb s j o := fun j o =>
    fileByte_congr (hown _) fun b hb => update_disk h.wf hT1 hl1 (h.blk.own.owned hb).1.1
  -- the fields the invariant speaks about are the old ones
  have hfields : ∀ j, (cur sb ((s.setD ip d).update sb ip) j).type = (cur sb s j).type ∧
      (cur sb ((s.setD ip d).update sb ip) j).size = (cur sb s j).size := fun j => by
    rw [hcur]
    split_ifs with hj
    · rw [hj, hcuri]
      exact ⟨ht, hs⟩
    · exact ⟨rfl, rfl⟩
  refine ⟨⟨h.wf, hT1.update hl1, hB1.update h.wf hT1 hl1, fun j hj => ?_, fun j hj => ?_, fun j hj => ?_,
    fun j hj => ?_⟩, fun j hj => ?_⟩
  · rw [hcur, hdino, h.clean j hj]
  · rw [(hfields j).1, (hfields j).2]
    exact h.size j hj
  · simp only [(hfields j).1, (hfields j).2, hown]
    exact h.dense j hj
  · rw [(hfields j).1, (hfields j).2]
    exact h.whole j hj
  · split_ifs with hji
    · subst hji
      have hne : (cur sb s j).type ≠ 0 := h.tab.cur_type hl
      rw [node, node, hcur, if_pos rfl, ht, ← hcuri, if_neg hne, if_neg hne]
      congr 1
      have hdir : dirents sb ((s.setD ip d).update sb ip) j = dirents sb s j := by
        unfold dirents
        rw [hcur, if_pos rfl, hs, ← hcuri]
        simp only [fileSlice, hbyte]
      rw [hdir]
    · refine node_congr ?_ rfl fun _ o _ => hbyte j o
      rw [hcur, if_neg hji]

end Node

section Change

variable {sb : Superblock} {s s' : State} {ip : Ip} {i j : ℕ}

/-- New contents of a live entry that are also on disk. -/
theorem cur_of_entry (hT : TableInv sb s) (hT' : TableInv sb s') (hl : Live s ip i) {d : Dinode}
    (htab : ∀ jp, jp ≠ ip → s'.itable jp = s.itable jp) (hent : s'.itable ip = { s.itable ip with d := d })
    (hdino : ∀ j < sb.ninodes, dino sb s' j = if j = i then d else dino sb s j) (hj : j < sb.ninodes) :
    cur sb s' j = if j = i then d else cur sb s j := by
  have hl' : Live s' ip i := by
    unfold Live
    rw [hent]
    exact hl
  split_ifs with hji
  · rw [hji, hT'.cur_live hl', hent]
  · refine cur_eq hT' (fun jp hlj => ?_) fun hdead => ?_
    · have hjp : jp ≠ ip := by
        rintro rfl
        exact hji (hlj.2.1.symm.trans hl'.2.1)
      unfold Live at hlj
      rw [htab jp hjp] at hlj ⊢
      rw [hT.cur_live hlj]
    · rw [hdino j hj, if_neg hji, cur_dead fun jp hlj => hdead jp ?_]
      have hjp : jp ≠ ip := by
        rintro rfl
        exact hji (hlj.2.1.symm.trans hl.2.1)
      unfold Live
      rw [htab jp hjp]
      exact hlj

theorem gen_of_aux (h : s'.aux = s.aux) : s'.gen = s.gen := congrArg Prod.snd h

/-- Truncating a file that is not a directory. -/
theorem FsInv.truncated (h : FsInv sb s) (hl : Live s ip i) (he : Emptied sb s s' ip i)
    (hdir : (cur sb s i).type ≠ T_DIR) : FsInv sb s' ∧ ∀ j < sb.ninodes, node sb s' j = node sb s j := by
  have hcur := fun j hj => cur_of_entry (j := j) h.tab he.tab hl he.table he.entry he.dino hj
  have hcuri := h.tab.cur_live hl
  have hother : ∀ j o, j ≠ i → fileByte sb s' j o = fileByte sb s j o := fun j o hji => by
    have hx : ¬ (fileSlot j (o / BSIZE)).inum = i := by
      rw [fileSlot_inum]
      exact hji
    exact fileByte_congr (by rw [he.owner, if_neg hx]) fun b hb => he.disk b (h.blk.own.owned hb).1.1
  refine ⟨⟨h.wf, he.tab, he.blk, fun j hj => ?_, fun j hj => ?_, fun j hj ht o ho => ?_, fun j hj ht => ?_⟩,
    fun j hj => ?_⟩
  · rw [hcur j hj, he.dino j hj, h.clean j hj]
  · rw [hcur j hj]
    split_ifs with hji
    · intro _
      exact Nat.zero_le _
    · exact h.size j hj
  · rw [hcur j hj] at ht ho
    split_ifs at ht ho with hji
    · exact absurd ho (Nat.not_lt_zero _)
    · rw [he.owner, if_neg (by rw [fileSlot_inum]; exact hji)]
      exact h.dense j hj ht o ho
  · rw [hcur j hj] at ht ⊢
    split_ifs at ht ⊢ with hji
    · rfl
    · exact h.whole j hj ht
  · by_cases hji : j = i
    · subst hji
      have hne := h.tab.cur_type hl
      have hc := hcur j hj
      rw [if_pos rfl] at hc
      rw [node, node, hc, gen_of_aux he.aux]
      rw [hcuri] at hdir hne ⊢
      rw [if_neg hne, if_neg hdir, if_neg hne, if_neg hdir]
    · refine node_congr ?_ (by rw [gen_of_aux he.aux]) fun _ o _ => hother j o hji
      rw [hcur j hj, if_neg hji]

theorem freed_cur (h : FsInv sb s) (hl : Live s ip i) (hf : Freed sb s s' ip i) (hj : j < sb.ninodes) (hji : j ≠ i) :
    cur sb s' j = cur sb s j := by
  have hne : ∀ jp, Live s' jp j → jp ≠ ip := fun jp hlj => by
    rintro rfl
    have := hlj.1
    rw [hf.ref] at this
    exact absurd this (lt_irrefl 0)
  refine cur_eq hf.tab (fun jp hlj => ?_) fun hdead => ?_
  · have hjp := hne jp hlj
    unfold Live at hlj
    rw [hf.table jp hjp] at hlj ⊢
    rw [h.tab.cur_live hlj]
  · rw [hf.dino j hj hji, cur_dead fun jp hlj => hdead jp ?_]
    have hjp : jp ≠ ip := by
      rintro rfl
      exact hji (hlj.2.1.symm.trans hl.2.1)
    unfold Live
    rw [hf.table jp hjp]
    exact hlj

/-- An inode freed by `iput`. -/
theorem FsInv.freed (h : FsInv sb s) (hl : Live s ip i) (hf : Freed sb s s' ip i) :
    FsInv sb s' ∧ ∀ j < sb.ninodes, node sb s' j = if j = i then Node.free (s.gen i) else node sb s j := by
  have hcuri : cur sb s' i = dino sb s' i := cur_dead fun jp hlj => hf.tab.free_dead hf.type jp hlj
  have htype : (cur sb s' i).type = 0 := by rw [hcuri, hf.type]
  have hcur : ∀ j < sb.ninodes, j ≠ i → cur sb s' j = cur sb s j := fun j hj hji => freed_cur h hl hf hj hji
  have hother : ∀ j o, j ≠ i → fileByte sb s' j o = fileByte sb s j o := fun j o hji => by
    have hx : ¬ (fileSlot j (o / BSIZE)).inum = i := by
      rw [fileSlot_inum]
      exact hji
    exact fileByte_congr (by rw [hf.owner, if_neg hx]) fun b hb => hf.disk b (h.blk.own.owned hb).1.1
  have hdir : T_DIR ≠ 0 := by decide
  refine ⟨⟨h.wf, hf.tab, hf.blk, fun j hj => ?_, fun j hj ht => ?_, fun j hj ht o ho => ?_, fun j hj ht => ?_⟩,
    fun j hj => ?_⟩
  · by_cases hji : j = i
    · rw [hji, hcuri]
    · rw [hcur j hj hji, hf.dino j hj hji, h.clean j hj]
  · have hji : j ≠ i := by
      rintro rfl
      exact ht htype
    rw [hcur j hj hji] at ht ⊢
    exact h.size j hj ht
  · have hji : j ≠ i := by
      rintro rfl
      exact ht htype
    rw [hcur j hj hji] at ht ho
    rw [hf.owner, if_neg (by rw [fileSlot_inum]; exact hji)]
    exact h.dense j hj ht o ho
  · have hji : j ≠ i := by
      rintro rfl
      exact hdir (ht.symm.trans htype)
    rw [hcur j hj hji] at ht ⊢
    exact h.whole j hj ht
  · split_ifs with hji
    · rw [hji, node, if_pos htype, gen_of_aux hf.aux]
    · exact node_congr (hcur j hj hji) (by rw [gen_of_aux hf.aux]) fun _ o _ => hother j o hji

/-- An inode handed out by `ialloc`. -/
theorem FsInv.take (h : FsInv sb s) (hi : i < sb.ninodes) (hfree : (dino sb s i).type = 0) {type : Int16}
    (ht : type ≠ 0) : FsInv sb (s.take sb i type) ∧ ∀ j < sb.ninodes, node sb (s.take sb i type) j =
      if j = i then ⟨type, 0, [], s.gen i + 1⟩ else node sb s j := by
  have hcur : ∀ j, cur sb (s.take sb i type) j = if j = i then { Dinode.zero with type := type } else cur sb s j :=
    fun j => h.tab.cur_take hfree
  have hown : ∀ x, owner sb (s.take sb i type) x = owner sb s x := h.tab.owner_take hfree h.wf hi h.blk
  have hbyte : ∀ j o, fileByte sb (s.take sb i type) j o = fileByte sb s j o := fun j o =>
    fileByte_congr (hown _) fun b hb => take_disk h.wf hi (h.blk.own.owned hb).1.1
  refine ⟨⟨h.wf, h.tab.take hfree, h.blk.take h.tab hfree h.wf hi, fun j hj => ?_, fun j hj => ?_,
    fun j hj ht o ho => ?_, fun j hj ht => ?_⟩, fun j hj => ?_⟩
  · rw [hcur, take_dino, h.clean j hj]
  · rw [hcur]
    split_ifs with hji
    · intro _
      exact Nat.zero_le _
    · exact h.size j hj
  · rw [hcur] at ht ho
    split_ifs at ht ho with hji
    · exact absurd ho (Nat.not_lt_zero _)
    · rw [hown]
      exact h.dense j hj ht o ho
  · rw [hcur] at ht ⊢
    split_ifs at ht ⊢ with hji
    · rfl
    · exact h.whole j hj ht
  · split_ifs with hji
    · subst hji
      have hnil : dirents sb (s.take sb j type) j = [] := by
        unfold dirents
        rw [hcur, if_pos rfl]
        simp [Dinode.zero]
      rw [node, hcur, if_pos rfl, if_neg ht, hnil, ite_self]
      congr 1
      exact Function.update_self _ _ _
    · refine node_congr ?_ ?_ fun _ o _ => hbyte j o
      · rw [hcur, if_neg hji]
      · exact Function.update_of_ne hji _ _

section Wrote

variable {src : Src} {off n tot : ℕ} (hT : TableInv sb s) (hl : Live s ip i) (hw : Wrote sb s s' ip i src off n tot)

include hT hl hw

theorem Wrote.cur_self : (cur sb s' i).type = (cur sb s i).type ∧ (cur sb s' i).nlink = (cur sb s i).nlink ∧
    (cur sb s' i).size = grownSize (cur sb s i) (off + tot) := by
  obtain ⟨a, ha⟩ := hw.entry
  have hl' : Live s' ip i := by
    unfold Live
    rw [ha]
    exact hl
  rw [hw.tab.cur_live hl', hT.cur_live hl, ha]
  exact ⟨rfl, rfl, rfl⟩

theorem Wrote.cur_ne (hj : j < sb.ninodes) (hji : j ≠ i) : cur sb s' j = cur sb s j := by
  obtain ⟨a, ha⟩ := hw.entry
  have hc := cur_of_entry hT hw.tab hl hw.table ha (fun j hj => by rw [hw.dino j hj, ha]) hj
  rwa [if_neg hji] at hc

/-- The new size in numbers. -/
theorem Wrote.size_eq (hmax : off + n ≤ MAXFILE * BSIZE) :
    (cur sb s' i).size.toNat = max (cur sb s i).size.toNat (off + tot) := by
  have hbig : MAXFILE * BSIZE < 2 ^ 32 := by decide
  have hle := hw.le
  rw [(hw.cur_self hT hl).2.2, grownSize]
  split_ifs with hgt
  · rw [UInt32.toNat_ofNat', Nat.mod_eq_of_lt (by omega)]
    omega
  · omega

end Wrote

section Write

variable {src : Src} {off n tot : ℕ} (h : FsInv sb s) (hl : Live s ip i) (hw : Wrote sb s s' ip i src off n tot)
  (hoff : off ≤ (cur sb s i).size.toNat) (hmax : off + n ≤ MAXFILE * BSIZE)

include h hl hw hoff hmax

/-- `writei` keeps the invariant, if a directory keeps to whole entries. -/
theorem FsInv.wrote (hwhole : (cur sb s i).type = T_DIR → (off + tot) % DIRENT = 0) : FsInv sb s' := by
  have hsz := hw.size_eq h.tab hl hmax
  have hi := h.tab.live_lt hl
  have hne := h.tab.cur_type hl
  have hle := hw.le
  obtain ⟨a, ha⟩ := hw.entry
  have hl' : Live s' ip i := by
    unfold Live
    rw [ha]
    exact hl
  refine ⟨h.wf, hw.tab, hw.blk, fun j hj => ?_, fun j hj ht => ?_, fun j hj ht o ho => ?_, fun j hj ht => ?_⟩
  · by_cases hji : j = i
    · rw [hji, hw.tab.cur_live hl', hw.dino i hi, if_pos rfl]
    · rw [hw.cur_ne h.tab hl hj hji, hw.dino j hj, if_neg hji, h.clean j hj]
  · by_cases hji : j = i
    · have := h.size i hi hne
      rw [hji, hsz]
      omega
    · rw [hw.cur_ne h.tab hl hj hji] at ht ⊢
      exact h.size j hj ht
  · by_cases hji : j = i
    · subst hji
      rw [hsz] at ho
      by_cases hold : o < (cur sb s j).size.toNat
      · exact hw.keep _ (h.dense j hj hne o hold)
      · exact hw.dense o (by omega) (by omega)
    · rw [hw.cur_ne h.tab hl hj hji] at ht ho
      rw [hw.other _ (by rw [fileSlot_inum]; exact hji)]
      exact h.dense j hj ht o ho
  · by_cases hji : j = i
    · subst hji
      have htype := (hw.cur_self h.tab hl).1
      rw [htype] at ht
      have h1 := h.whole j hj ht
      have h2 := hwhole ht
      rw [hsz]
      rcases le_total (cur sb s j).size.toNat (off + tot) with hc | hc
      · rw [max_eq_right hc]
        exact h2
      · rw [max_eq_left hc]
        exact h1
    · rw [hw.cur_ne h.tab hl hj hji] at ht ⊢
      exact h.whole j hj ht

omit hoff hmax in
theorem Wrote.node_ne (hmax : ∀ j < sb.ninodes, (cur sb s j).type ≠ 0 → (cur sb s j).size.toNat ≤ MAXFILE * BSIZE)
    (hj : j < sb.ninodes) (hji : j ≠ i) : node sb s' j = node sb s j := by
  have hdir : T_DIR ≠ 0 := by decide
  refine node_congr (hw.cur_ne h.tab hl hj hji) (by rw [gen_of_aux hw.aux]) fun ht o ho => ?_
  have hle := hmax j hj (by rw [ht]; exact hdir)
  exact hw.bytes j o (by omega) (Or.inl hji)

omit hoff hmax in
/-- Writing to a file that is not a directory changes no node. -/
theorem Wrote.node_file (ht : (cur sb s i).type ≠ T_DIR) (hj : j < sb.ninodes) : node sb s' j = node sb s j := by
  by_cases hji : j = i
  · subst hji
    obtain ⟨h1, h2, -⟩ := hw.cur_self h.tab hl
    rw [node, node, h1, h2, gen_of_aux hw.aux]
    simp only [if_neg ht]
  · exact hw.node_ne h hl h.size hj hji

end Write

/-- Entry `k` replaced by `de`, or `de` put at the end. -/
def setEnt (ents : List Dirent) (k : ℕ) (de : Dirent) : List Dirent :=
  if k < ents.length then ents.set k de else ents ++ [de]

theorem setEnt_getElem? {ents : List Dirent} {k : ℕ} {de : Dirent} (hk : k ≤ ents.length) (m : ℕ) :
    (setEnt ents k de)[m]? = if m = k then some de else ents[m]? := by
  unfold setEnt
  split_ifs with h1 h2 h2
  · rw [h2, List.getElem?_set_self h1]
  · rw [List.getElem?_set_ne (Ne.symm h2)]
  · rw [h2, show k = ents.length by omega, List.getElem?_concat_length]
  · rcases lt_or_gt_of_ne h2 with hlt | hgt
    · rw [List.getElem?_append_left (by omega)]
    · rw [List.getElem?_eq_none (by simp; omega), List.getElem?_eq_none (by omega)]

theorem dirents_length : (dirents sb s i).length = (cur sb s i).size.toNat / DIRENT := by simp [dirents]

theorem dirents_getElem? {k : ℕ} : (dirents sb s i)[k]? =
    if k < (cur sb s i).size.toNat / DIRENT then some (Dirent.decode (fileSlice sb s i (DIRENT * k) DIRENT)) else none := by
  unfold dirents
  rw [List.getElem?_map]
  split_ifs with h
  · rw [List.getElem?_range h]
    rfl
  · rw [List.getElem?_eq_none (by simpa using h)]
    rfl

theorem entry_off {k : ℕ} (hk : k ≤ (dirents sb s i).length) (hd : (cur sb s i).size.toNat % DIRENT = 0) :
    DIRENT * k ≤ (cur sb s i).size.toNat := by
  rw [dirents_length] at hk
  have := Nat.mul_le_mul_left DIRENT hk
  rw [Nat.mul_div_cancel' (Nat.dvd_of_mod_eq_zero hd)] at this
  exact this

theorem entry_disjoint {m k : ℕ} (h : m ≠ k) :
    DIRENT * m + DIRENT ≤ DIRENT * k ∨ DIRENT * k + DIRENT ≤ DIRENT * m := by
  change 16 * m + 16 ≤ 16 * k ∨ 16 * k + 16 ≤ 16 * m
  omega

section WriteEntry

variable {bs : List UInt8} {k tot : ℕ} (h : FsInv sb s) (hl : Live s ip i)
  (hw : Wrote sb s s' ip i (.kernel bs) (DIRENT * k) DIRENT tot) (hdir : (cur sb s i).type = T_DIR)
  (hk : k ≤ (dirents sb s i).length) (hmax : DIRENT * k + DIRENT ≤ MAXFILE * BSIZE)

include h hl hw hdir hk hmax

/-- Nothing was written: the disk is full. -/
theorem Wrote.node_none (htot : tot = 0) : node sb s' i = node sb s i := by
  subst htot
  have hi := h.tab.live_lt hl
  have hne := h.tab.cur_type hl
  obtain ⟨h1, h2, -⟩ := hw.cur_self h.tab hl
  have hoff := entry_off hk (h.whole i hi hdir)
  have hsz : (cur sb s' i).size.toNat = (cur sb s i).size.toNat := by
    rw [hw.size_eq h.tab hl hmax, Nat.add_zero, max_eq_left hoff]
  have hents : dirents sb s' i = dirents sb s i := by
    unfold dirents
    rw [hsz]
    refine List.map_congr_left fun m hm => ?_
    congr 1
    refine List.map_congr_left fun t ht => ?_
    have hm := List.mem_range.mp hm
    have ht := List.mem_range.mp ht
    have hle := Nat.mul_div_le (cur sb s i).size.toNat DIRENT
    have hmul := Nat.mul_le_mul_left DIRENT (Nat.succ_le_of_lt hm)
    have hcap := h.size i hi hne
    rw [Nat.succ_eq_add_one, Nat.mul_add, Nat.mul_one] at hmul
    exact hw.exact (Src.clean_kernel _ _ _ _) i _ (by omega) (by omega)
  rw [node, node, h1, h2, hents, gen_of_aux hw.aux]

/-- One whole entry was written. -/
theorem Wrote.node_entry (htot : tot = DIRENT) (hbs : bs.length = DIRENT) :
    node sb s' i = { node sb s i with ents := setEnt (node sb s i).ents k (Dirent.decode bs) } := by
  subst htot
  have hi := h.tab.live_lt hl
  have hne := h.tab.cur_type hl
  obtain ⟨h1, h2, -⟩ := hw.cur_self h.tab hl
  have hwhole := h.whole i hi hdir
  have hoff := entry_off hk hwhole
  have hsz := hw.size_eq h.tab hl hmax
  have hcap := h.size i hi hne
  have hpos : 0 < DIRENT := by decide
  have hdiv := Nat.mul_div_cancel' (Nat.dvd_of_mod_eq_zero hwhole)
  -- the number of entries grows by one if the entry is at the end
  have hlen : (cur sb s' i).size.toNat / DIRENT = max ((cur sb s i).size.toNat / DIRENT) (k + 1) := by
    rw [hsz, ← Nat.mul_succ, Nat.succ_eq_add_one]
    rcases le_total (cur sb s i).size.toNat (DIRENT * (k + 1)) with hc | hc
    · rw [max_eq_right hc, Nat.mul_div_cancel_left _ hpos, max_eq_right]
      rw [← hdiv] at hc
      exact Nat.le_of_mul_le_mul_left hc hpos
    · rw [max_eq_left hc, max_eq_left]
      exact (Nat.le_div_iff_mul_le hpos).mpr (by rw [Nat.mul_comm]; exact hc)
  have hents : dirents sb s' i = setEnt (dirents sb s i) k (Dirent.decode bs) := by
    apply List.ext_getElem?
    intro m
    rw [setEnt_getElem? hk, dirents_getElem?, dirents_getElem?, hlen]
    by_cases hmk : m = k
    · subst hmk
      rw [if_pos (lt_max_of_lt_right (Nat.lt_succ_self m)), if_pos rfl]
      congr 2
      apply List.ext_getElem
      · simp [fileSlice, hbs]
      · intro t ht1 ht2
        have ht : t < DIRENT := by simpa [fileSlice] using ht1
        simp only [fileSlice, List.getElem_map, List.getElem_range]
        rw [hw.inside hbs t ht]
        simp [Src.byte, ht2]
    · rw [if_neg hmk]
      rw [dirents_length] at hk
      have hiff : m < max ((cur sb s i).size.toNat / DIRENT) (k + 1) ↔ m < (cur sb s i).size.toNat / DIRENT := by
        rw [lt_max_iff]
        omega
      simp only [hiff]
      split_ifs with hm
      · congr 2
        refine List.map_congr_left fun t ht => ?_
        have ht := List.mem_range.mp ht
        have hmul := Nat.mul_le_mul_left DIRENT (Nat.succ_le_of_lt hm)
        rw [Nat.succ_eq_add_one, Nat.mul_add, Nat.mul_one, hdiv] at hmul
        have hsep := entry_disjoint hmk
        exact hw.exact (Src.clean_kernel _ _ _ _) i _ (by omega) (by omega)
      · rfl
  rw [node, h1, if_neg hne, if_pos hdir, h2, hents, gen_of_aux hw.aux, node, if_neg hne, if_pos hdir]

end WriteEntry

end Change

end Xv6.Fs
