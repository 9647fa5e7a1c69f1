import Xv6.Sanity.Nodes

/-! The state in the middle of a call: which references there are, which inodes are
locked, and what the nodes are. Each operation of the inode layer is a rule that
moves from one such description to the next, so calls are followed without looking
at the table or the disk again. -/

namespace Xv6.Fs

open Wp

/-- The references `L`, of which each is an entry of the table and its inode, are all
there are; the entries in `K` are locked; the nodes are those of `N`. An inode
without links has a reference through which it will be freed. -/
structure Ctx (sb : Superblock) (s : State) (L : Multiset (Ip × ℕ)) (K : List Ip) (N : ℕ → Node) : Prop where
  inv : FsInv sb s
  ref : ∀ jp, (s.itable jp).ref = (L.map Prod.fst).count jp
  inum : ∀ r ∈ L, (s.itable r.1).inum = r.2
  lock : ∀ jp, (s.itable jp).locked = true ↔ jp ∈ K
  valid : ∀ jp ∈ K, 0 < (s.itable jp).ref ∧ (s.itable jp).valid = true
  held : ∀ i < sb.ninodes, (N i).type ≠ 0 → (N i).nlink = 0 → ∃ r ∈ L, r.2 = i ∧ (s.itable r.1).valid = true
  node : ∀ i < sb.ninodes, node sb s i = N i

section Rules

variable {sb : Superblock} {s s' : State} {L : Multiset (Ip × ℕ)} {K : List Ip} {N : ℕ → Node} {ip jp : Ip} {i j : ℕ}

section Facts

variable (h : Ctx sb s L K N)

include h

theorem Ctx.at (hr : (ip, i) ∈ L) : At s ip i := by
  refine ⟨?_, h.inum _ hr⟩
  rw [h.ref]
  exact Multiset.count_pos.mpr (Multiset.mem_map_of_mem Prod.fst hr)

theorem Ctx.lt (hr : (ip, i) ∈ L) : i < sb.ninodes :=
  (h.at hr).2 ▸ h.inv.tab.inum ip (h.at hr).1

theorem Ctx.uniq (hr : (ip, i) ∈ L) (hr' : (jp, i) ∈ L) : ip = jp :=
  h.inv.tab.uniq ip jp (h.at hr).1 (h.at hr').1 ((h.at hr).2.trans (h.at hr').2.symm)

theorem Ctx.uniq_inum (hr : (ip, i) ∈ L) (hr' : (ip, j) ∈ L) : i = j :=
  (h.at hr).2.symm.trans (h.at hr').2

theorem Ctx.live (hr : (ip, i) ∈ L) (hk : ip ∈ K) : Live s ip i :=
  live_iff.mpr ⟨h.at hr, (h.valid ip hk).2⟩

theorem Ctx.type (hi : i < sb.ninodes) : (cur sb s i).type = (N i).type := by
  rw [← h.node i hi, node_type]

theorem Ctx.nlink (hi : i < sb.ninodes) (ht : (N i).type ≠ 0) : (cur sb s i).nlink = (N i).nlink := by
  rw [← h.node i hi, node_nlink]
  rw [h.type hi]
  exact ht

/-- The entry a lock holder reads. -/
theorem Ctx.entry (hr : (ip, i) ∈ L) (hk : ip ∈ K) : (s.itable ip).d = cur sb s i :=
  (h.inv.tab.cur_live (h.live hr hk)).symm

theorem Ctx.locked_type (hr : (ip, i) ∈ L) (hk : ip ∈ K) : (N i).type ≠ 0 := by
  rw [← h.type (h.lt hr)]
  exact h.inv.tab.cur_type (h.live hr hk)

theorem Ctx.dev (hr : (ip, i) ∈ L) : (s.itable ip).dev = ROOTDEV := h.inv.tab.dev ip (h.at hr).1

end Facts

theorem count_cons (L : Multiset (Ip × ℕ)) (ip jp : Ip) (i : ℕ) :
    (((ip, i) ::ₘ L).map Prod.fst).count jp = (L.map Prod.fst).count jp + if jp = ip then 1 else 0 := by
  rw [Multiset.map_cons, Multiset.count_cons]

/-- A step in the table only: what is left to check are the references and locks. -/
theorem Ctx.table (h : Ctx sb s L K N) {L' : Multiset (Ip × ℕ)} {K' : List Ip} (hT : TableInv sb s')
    (hdisk : s'.disk = s.disk) (hgen : s'.gen = s.gen) (hcur : ∀ j < sb.ninodes, cur sb s' j = cur sb s j)
    (href : ∀ jp, (s'.itable jp).ref = (L'.map Prod.fst).count jp) (hinum : ∀ r ∈ L', (s'.itable r.1).inum = r.2)
    (hlock : ∀ jp, (s'.itable jp).locked = true ↔ jp ∈ K')
    (hvalid : ∀ jp ∈ K', 0 < (s'.itable jp).ref ∧ (s'.itable jp).valid = true)
    (hheld : ∀ r ∈ L, (s.itable r.1).valid = true → (N r.2).type ≠ 0 → (N r.2).nlink = 0 →
      ∃ r' ∈ L', r'.2 = r.2 ∧ (s'.itable r'.1).valid = true) : Ctx sb s' L' K' N := by
  obtain ⟨hinv, hnode⟩ := h.inv.table hT hdisk hgen hcur
  refine ⟨hinv, href, hinum, hlock, hvalid, fun i hi ht hn => ?_, fun i hi => (hnode i hi).trans (h.node i hi)⟩
  obtain ⟨r, hr, rfl, hv⟩ := h.held i hi ht hn
  exact hheld r hr hv ht hn

/-- The order in which the locks were taken does not matter. -/
theorem Ctx.keys (h : Ctx sb s L K N) {K' : List Ip} (hK : ∀ jp, jp ∈ K ↔ jp ∈ K') : Ctx sb s L K' N :=
  ⟨h.inv, h.ref, h.inum, fun jp => (h.lock jp).trans (hK jp), fun jp hj => h.valid jp ((hK jp).mpr hj), h.held, h.node⟩

theorem got_locked : ((s.got ip i).itable jp).locked = (s.itable jp).locked := by
  unfold State.got
  by_cases hj : jp = ip
  · subst hj
    split_ifs <;> rw [setInode_itable_self]
  · split_ifs <;> rw [setInode_itable_ne hj]

/-- `iget`, and `idup` of an entry that has a reference. -/
theorem Ctx.got (h : Ctx sb s L K N) (ha : Avail s ip i) (hi : i < sb.ninodes) :
    Ctx sb (s.got ip i) ((ip, i) ::ₘ L) K N := by
  refine h.table (h.inv.tab.got ha hi) got_disk got_gen (fun j _ => h.inv.tab.cur_got ha hi) (fun jp => ?_)
    (fun r hr => ?_) (fun jp => ?_) (fun jp hj => ?_) fun r hr hv _ _ => ?_
  · rw [got_ref, count_cons, h.ref]
  · rcases Multiset.mem_cons.mp hr with rfl | hr
    · exact (got_at ha).2
    · rw [got_entry (h.at hr).1]
      exact h.inum r hr
  · rw [got_locked]
    exact h.lock jp
  · obtain ⟨hr, hv⟩ := h.valid jp hj
    refine ⟨?_, ?_⟩
    · rw [got_ref]
      exact Nat.add_pos_left hr _
    · rw [got_entry hr]
      exact hv
  · refine ⟨r, Multiset.mem_cons_of_mem hr, rfl, ?_⟩
    rw [got_entry (h.at hr).1]
    exact hv

theorem Ctx.iget (h : Ctx sb s L K N) (hi : i < sb.ninodes) :
    wp (iget ROOTDEV i) (fun ip s' => Ctx sb s' ((ip, i) ::ₘ L) K N) noInodes s := by
  refine wp_mono (iget_spec h.inv.tab i) (fun ip s' hs => ?_) fun _ he => he
  obtain ⟨ha, rfl⟩ := hs
  exact h.got ha hi

theorem Ctx.idup (h : Ctx sb s L K N) (hr : (ip, i) ∈ L) :
    wp (idup ip) (fun r s' => r = ip ∧ Ctx sb s' ((ip, i) ::ₘ L) K N) (fun _ => False) s := by
  refine wp_mono (idup_spec (h.at hr)) (fun r s' hs => ?_) fun _ he => he
  obtain ⟨rfl, rfl⟩ := hs
  exact ⟨rfl, h.got (Or.inl (h.at hr)) (h.lt hr)⟩

/-- The fields of a locked entry, and those of the others. -/
theorem lock_itable (jp : Ip) : (s.lock sb ip).itable jp = if jp = ip then
    { s.itable ip with locked := true, valid := true, d := cur sb s (s.itable ip).inum } else s.itable jp := by
  split_ifs with h
  · rw [h, State.lock, setInode_itable_self]
  · rw [State.lock, setInode_itable_ne h]

theorem unlock_itable (jp : Ip) : (s.unlock ip).itable jp = if jp = ip then
    { s.itable ip with locked := false } else s.itable jp := by
  split_ifs with h
  · rw [h, State.unlock, setInode_itable_self]
  · rw [State.unlock, setInode_itable_ne h]

theorem Ctx.ilock (h : Ctx sb s L K N) (hr : (ip, i) ∈ L) (hk : ip ∉ K) :
    wp (ilock sb ip) (fun _ s' => (N i).type ≠ 0 ∧ Ctx sb s' L (ip :: K) N) (fun e => (N i).type = 0 ∧ noType e) s := by
  have hat := h.at hr
  have hun : (s.itable ip).locked = false := by
    rw [← Bool.not_eq_true, h.lock]
    exact hk
  rw [← h.type (h.lt hr)]
  refine wp_mono (ilock_spec h.inv.tab hat hun) (fun _ s' hs => ?_) fun _ he => he
  obtain ⟨ht, rfl⟩ := hs
  have href : ∀ jp, ((s.lock sb ip).itable jp).ref = (s.itable jp).ref := fun jp => by
    rw [lock_itable]
    split_ifs with hj
    · rw [hj]
    · rfl
  have hvalid : ∀ jp, (s.itable jp).valid = true → ((s.lock sb ip).itable jp).valid = true := fun jp hv => by
    rw [lock_itable]
    split_ifs
    · rfl
    · exact hv
  refine ⟨ht, h.table (h.inv.tab.lock hat ht) rfl rfl (fun j _ => h.inv.tab.cur_lock hat ht) (fun jp => ?_)
    (fun r hr' => ?_) (fun jp => ?_) (fun jp hj => ?_) fun r hr' hv _ _ => ⟨r, hr', rfl, hvalid _ hv⟩⟩
  · rw [href, h.ref]
  · rw [← h.inum r hr', lock_itable]
    split_ifs with hj
    · rw [hj]
    · rfl
  · rw [lock_itable, List.mem_cons]
    split_ifs with hj
    · simp [hj]
    · rw [h.lock]
      simp [hj]
  · rw [href]
    rcases List.mem_cons.mp hj with rfl | hj
    · exact ⟨hat.1, by rw [lock_itable, if_pos rfl]⟩
    · exact ⟨(h.valid jp hj).1, hvalid jp (h.valid jp hj).2⟩

theorem Ctx.iunlock (h : Ctx sb s L (ip :: K) N) (hr : (ip, i) ∈ L) (hk : ip ∉ K) :
    wp (iunlock ip) (fun _ s' => Ctx sb s' L K N) (fun _ => False) s := by
  have hat := h.at hr
  have hlk : (s.itable ip).locked = true := (h.lock ip).mpr List.mem_cons_self
  refine wp_mono (iunlock_spec hat.1 hlk) (fun _ s' hs => ?_) fun _ he => he
  subst hs
  have hsame : ∀ jp, ((s.unlock ip).itable jp).ref = (s.itable jp).ref ∧
      ((s.unlock ip).itable jp).inum = (s.itable jp).inum ∧
      ((s.unlock ip).itable jp).valid = (s.itable jp).valid := fun jp => by
    rw [unlock_itable]
    split_ifs with hj
    · rw [hj]
      exact ⟨rfl, rfl, rfl⟩
    · exact ⟨rfl, rfl, rfl⟩
  refine h.table (h.inv.tab.unlock hat) rfl rfl (fun j _ => h.inv.tab.cur_unlock hat) (fun jp => ?_)
    (fun r hr' => ?_) (fun jp => ?_) (fun jp hj => ?_) fun r hr' hv _ _ => ⟨r, hr', rfl, by rw [(hsame _).2.2]; exact hv⟩
  · rw [(hsame jp).1, h.ref]
  · rw [(hsame _).2.1]
    exact h.inum r hr'
  · rw [unlock_itable]
    split_ifs with hj
    · simp [hj, hk]
    · rw [h.lock, List.mem_cons]
      simp [hj]
  · rw [(hsame jp).1, (hsame jp).2.2]
    exact h.valid jp (List.mem_cons_of_mem _ hj)

/-- Whether the last of the references `(ip, i)` and `L` to an inode without links goes with `(ip, i)`. -/
def Last (N : ℕ → Node) (L : Multiset (Ip × ℕ)) (i : ℕ) : Prop :=
  (N i).type ≠ 0 ∧ (N i).nlink = 0 ∧ ∀ r ∈ L, r.2 ≠ i

theorem Ctx.lastUnlinked (h : Ctx sb s ((ip, i) ::ₘ L) K N) (hl : LastUnlinked s ip) : Last N L i := by
  have hr := Multiset.mem_cons_self (ip, i) L
  have hlive : Live s ip i := live_iff.mpr ⟨h.at hr, hl.2.1⟩
  have ht : (N i).type ≠ 0 := by
    rw [← h.type (h.lt hr)]
    exact h.inv.tab.cur_type hlive
  refine ⟨ht, ?_, fun r hrL hri => ?_⟩
  · rw [← h.nlink (h.lt hr) ht, h.inv.tab.cur_live hlive]
    exact hl.2.2
  · have hrip : ip = r.1 := h.uniq hr (by rw [← hri]; exact Multiset.mem_cons_of_mem hrL)
    have hcount := h.ref ip
    rw [hl.1, count_cons, if_pos rfl] at hcount
    have hpos : 0 < (L.map Prod.fst).count ip :=
      Multiset.count_pos.mpr (hrip ▸ Multiset.mem_map_of_mem Prod.fst hrL)
    omega

theorem Last.lastUnlinked (hlast : Last N L i) (h : Ctx sb s ((ip, i) ::ₘ L) K N) : LastUnlinked s ip := by
  have hr := Multiset.mem_cons_self (ip, i) L
  obtain ⟨ht, hn, hno⟩ := hlast
  obtain ⟨r, hrL, hri, hv⟩ := h.held i (h.lt hr) ht hn
  have hreq : r = (ip, i) := (Multiset.mem_cons.mp hrL).resolve_right fun hr' => hno r hr' hri
  subst hreq
  have hlive : Live s ip i := live_iff.mpr ⟨h.at hr, hv⟩
  refine ⟨?_, hv, ?_⟩
  · have hzero : (L.map Prod.fst).count ip = 0 := by
      rw [Multiset.count_eq_zero]
      intro hm
      obtain ⟨r', hr', hr1⟩ := Multiset.mem_map.mp hm
      have hr'L : (ip, r'.2) ∈ (ip, i) ::ₘ L := by
        rw [← hr1]
        exact Multiset.mem_cons_of_mem hr'
      exact hno r' hr' (h.uniq_inum hr'L hr)
    rw [h.ref, count_cons, if_pos rfl, hzero]
  · rw [← h.inv.tab.cur_live hlive, h.nlink (h.lt hr) ht]
    exact hn

/-- Dropping a reference that is not the last one to an inode without links. -/
theorem Ctx.dropped (h : Ctx sb s ((ip, i) ::ₘ L) K N) (hk : ip ∈ K → (ip, i) ∈ L) (hkeep : ¬ Last N L i) :
    Ctx sb (s.drop ip) L K N := by
  have hr := Multiset.mem_cons_self (ip, i) L
  have hat := h.at hr
  have hcur : ∀ j < sb.ninodes, cur sb (s.drop ip) j = cur sb s j := fun j hj => by
    rw [h.inv.tab.cur_drop hat]
    split_ifs
    · rw [h.inv.clean j hj]
    · rfl
  have href : ∀ jp, ((s.drop ip).itable jp).ref = (L.map Prod.fst).count jp := fun jp => by
    rw [drop_ref, h.ref, count_cons]
    split_ifs <;> omega
  refine h.table (h.inv.tab.drop hat) rfl rfl hcur href (fun r hrL => ?_) (fun jp => ?_) (fun jp hj => ?_)
    fun r hrL hv ht hn => ?_
  · rw [drop_entry]
    exact h.inum r (Multiset.mem_cons_of_mem hrL)
  · rw [drop_entry]
    exact h.lock jp
  · refine ⟨?_, by rw [drop_entry]; exact (h.valid jp hj).2⟩
    by_cases hji : jp = ip
    · rw [href]
      subst hji
      exact Multiset.count_pos.mpr (Multiset.mem_map_of_mem Prod.fst (hk hj))
    · rw [drop_ref, if_neg hji]
      exact (h.valid jp hj).1
  · rcases Multiset.mem_cons.mp hrL with rfl | hrL
    · -- the reference that goes: there is another one
      have hex : ∃ r' ∈ L, r'.2 = i := by
        by_contra hno
        exact hkeep ⟨ht, hn, fun r' hr' he => hno ⟨r', hr', he⟩⟩
      obtain ⟨r', hr', hri⟩ := hex
      refine ⟨r', hr', hri, ?_⟩
      have : ip = r'.1 := h.uniq hr (by rw [← hri]; exact Multiset.mem_cons_of_mem hr')
      rw [drop_entry, ← this]
      exact hv
    · exact ⟨r, hrL, rfl, by rw [drop_entry]; exact hv⟩

/-- Dropping the last reference to an inode without links. -/
theorem Ctx.freed (h : Ctx sb s ((ip, i) ::ₘ L) K N) (hk : ip ∉ K) (hlast : Last N L i) (hf : Freed sb s s' ip i) :
    Ctx sb s' L K (Function.update N i (Node.free (N i).gen)) := by
  have hr := Multiset.mem_cons_self (ip, i) L
  have hat := h.at hr
  have hlu := hlast.lastUnlinked h
  have hlive : Live s ip i := live_iff.mpr ⟨hat, hlu.2.1⟩
  obtain ⟨hinv, hnode⟩ := h.inv.freed hlive hf
  have hno : ∀ r ∈ L, r.1 ≠ ip := fun r hrL he => by
    have hrL' : (ip, r.2) ∈ (ip, i) ::ₘ L := by
      rw [← he]
      exact Multiset.mem_cons_of_mem hrL
    exact hlast.2.2 r hrL (h.uniq_inum hrL' hr)
  refine ⟨hinv, fun jp => ?_, fun r hrL => ?_, fun jp => ?_, fun jp hj => ?_, fun j hj ht hn => ?_, fun j hj => ?_⟩
  · by_cases hji : jp = ip
    · rw [hji, hf.ref, eq_comm, Multiset.count_eq_zero]
      intro hm
      obtain ⟨r, hrL, he⟩ := Multiset.mem_map.mp hm
      exact hno r hrL he
    · rw [hf.table jp hji, h.ref, count_cons, if_neg hji, Nat.add_zero]
  · rw [hf.table _ (hno r hrL)]
    exact h.inum r (Multiset.mem_cons_of_mem hrL)
  · by_cases hji : jp = ip
    · rw [hji, hf.locked]
      simp [hk]
    · rw [hf.table jp hji]
      exact h.lock jp
  · have hji : jp ≠ ip := by
      rintro rfl
      exact hk hj
    rw [hf.table jp hji]
    exact h.valid jp hj
  · by_cases hji : j = i
    · subst hji
      rw [Function.update_self] at ht
      exact absurd rfl ht
    · rw [Function.update_of_ne hji] at ht hn
      obtain ⟨r, hrL, hrj, hv⟩ := h.held j hj ht hn
      have hrL' : r ∈ L := (Multiset.mem_cons.mp hrL).resolve_left fun he => hji (by rw [← hrj, he])
      exact ⟨r, hrL', hrj, by rw [hf.table _ (hno r hrL')]; exact hv⟩
  · rw [hnode j hj]
    split_ifs with hji
    · rw [hji, Function.update_self, ← h.node i (h.lt hr), node_gen]
    · rw [Function.update_of_ne hji]
      exact h.node j hj

instance : Decidable (Last N L i) := inferInstanceAs (Decidable (_ ∧ _ ∧ _))

/-- The nodes after a reference to `i` is dropped and `L` are left. -/
def release (N : ℕ → Node) (L : Multiset (Ip × ℕ)) (i : ℕ) : ℕ → Node :=
  if Last N L i then Function.update N i (Node.free (N i).gen) else N

theorem release_keep (h : ¬ Last N L i) : release N L i = N := if_neg h

/-- `iput`, whether it frees the inode or not. -/
theorem Ctx.iput (h : Ctx sb s ((ip, i) ::ₘ L) K N) (hk : ip ∈ K → (ip, i) ∈ L) :
    wp (iput sb ip) (fun _ s' => Ctx sb s' L K (release N L i)) (fun _ => False) s := by
  have hr := Multiset.mem_cons_self (ip, i) L
  have hnk : Last N L i → ip ∉ K := fun hlast hkm => hlast.2.2 _ (hk hkm) rfl
  refine wp_mono (iput_spec h.inv.wf h.inv.tab h.inv.blk (h.at hr) fun hlu => ?_) (fun _ s' hs => ?_) fun _ he => he
  · rw [← Bool.not_eq_true, h.lock]
    exact hnk (h.lastUnlinked hlu)
  · rcases hs with ⟨hlu, hf⟩ | ⟨hno, rfl⟩
    · have hlast := h.lastUnlinked hlu
      rw [release, if_pos hlast]
      exact h.freed (hnk hlast) hlast hf
    · have hkeep : ¬ Last N L i := fun hlast => hno (hlast.lastUnlinked h)
      rw [release_keep hkeep]
      exact h.dropped hk hkeep

/-- `iput` of a reference that is not the last one, as in a path that is followed. -/
theorem Ctx.iput_keep (h : Ctx sb s ((ip, i) ::ₘ L) K N) (hk : ip ∈ K → (ip, i) ∈ L) (hkeep : ¬ Last N L i) :
    wp (Fs.iput sb ip) (fun _ s' => Ctx sb s' L K N) (fun _ => False) s :=
  wp_mono (h.iput hk) (fun _ _ hs => by rwa [release_keep hkeep] at hs) fun _ he => he

theorem Ctx.iunlockput (h : Ctx sb s ((ip, i) ::ₘ L) (ip :: K) N) (hk : ip ∉ K) :
    wp (iunlockput sb ip) (fun _ s' => Ctx sb s' L K (release N L i)) (fun _ => False) s := by
  rw [Fs.iunlockput, wp_bind]
  refine wp_mono (h.iunlock (Multiset.mem_cons_self _ _) hk) (fun _ s1 h1 => ?_) fun _ he => he
  exact h1.iput fun hm => absurd hm hk

theorem Ctx.iunlockput_keep (h : Ctx sb s ((ip, i) ::ₘ L) (ip :: K) N) (hk : ip ∉ K) (hkeep : ¬ Last N L i) :
    wp (Fs.iunlockput sb ip) (fun _ s' => Ctx sb s' L K N) (fun _ => False) s :=
  wp_mono (h.iunlockput hk) (fun _ _ hs => by rwa [release_keep hkeep] at hs) fun _ he => he

section Steps

variable (h : Ctx sb s L K N)

include h

/-- The transaction counters are nothing to the nodes. -/
theorem Ctx.tx (hdisk : s'.disk = s.disk) (htab : s'.itable = s.itable) (hgen : s'.gen = s.gen) :
    Ctx sb s' L K N := by
  have hdino : ∀ j, dino sb s' j = dino sb s j := fun j => dino_congr (by rw [hdisk])
  refine h.table (h.inv.tab.of_disk htab fun j _ => by rw [hdino]) hdisk hgen (fun j _ => cur_congr htab (hdino j))
    (fun jp => ?_) (fun r hr => ?_) (fun jp => ?_) (fun jp hj => ?_) fun r hr hv _ _ => ⟨r, hr, rfl, ?_⟩
  · rw [htab, h.ref]
  · rw [htab, h.inum r hr]
  · rw [htab, h.lock]
  · rw [htab]
    exact h.valid jp hj
  · rw [htab]
    exact hv

/-- A step that changes the contents of the locked inode `i` only. -/
theorem Ctx.contents (hr : (ip, i) ∈ L) (hk : ip ∈ K) {n : Node} (hinv : FsInv sb s')
    (htab : ∀ jp, jp ≠ ip → s'.itable jp = s.itable jp) (hent : ∃ d, s'.itable ip = { s.itable ip with d := d })
    (hself : Fs.node sb s' i = n) (hother : ∀ j < sb.ninodes, j ≠ i → Fs.node sb s' j = Fs.node sb s j) :
    Ctx sb s' L K (Function.update N i n) := by
  have hsame : ∀ jp, (s'.itable jp).ref = (s.itable jp).ref ∧ (s'.itable jp).inum = (s.itable jp).inum ∧
      (s'.itable jp).locked = (s.itable jp).locked ∧ (s'.itable jp).valid = (s.itable jp).valid := fun jp => by
    by_cases hj : jp = ip
    · obtain ⟨d, hd⟩ := hent
      rw [hj, hd]
      exact ⟨rfl, rfl, rfl, rfl⟩
    · rw [htab jp hj]
      exact ⟨rfl, rfl, rfl, rfl⟩
  refine ⟨hinv, fun jp => ?_, fun r hr => ?_, fun jp => ?_, fun jp hj => ?_, fun j hj ht hn => ?_, fun j hj => ?_⟩
  · rw [(hsame jp).1, h.ref]
  · rw [(hsame _).2.1, h.inum r hr]
  · rw [(hsame jp).2.2.1, h.lock]
  · rw [(hsame jp).1, (hsame jp).2.2.2]
    exact h.valid jp hj
  · by_cases hji : j = i
    · exact ⟨(ip, i), hr, hji.symm, by rw [(hsame ip).2.2.2]; exact (h.valid ip hk).2⟩
    · rw [Function.update_of_ne hji] at ht hn
      obtain ⟨r, hrL, hrj, hv⟩ := h.held j hj ht hn
      exact ⟨r, hrL, hrj, by rw [(hsame _).2.2.2]; exact hv⟩
  · by_cases hji : j = i
    · rw [hji, Function.update_self, hself]
    · rw [Function.update_of_ne hji, hother j hj hji, h.node j hj]

/-- Assigning to fields of a locked inode, and `iupdate`. -/
theorem Ctx.update (hr : (ip, i) ∈ L) (hk : ip ∈ K) {f : Dinode → Dinode} {g : Int16 → Int16}
    (hf : ∀ d, (f d).type = d.type ∧ (f d).size = d.size ∧ (f d).addrs = d.addrs) (hg : ∀ d, (f d).nlink = g d.nlink) :
    wp (iupdate sb ip) (fun _ s' => Ctx sb s' L K (Function.update N i { N i with nlink := g (N i).nlink }))
      (fun _ => False) (s.setD ip (f (s.itable ip).d)) := by
  have hl := h.live hr hk
  have hi := h.lt hr
  have hent := h.entry hr hk
  have ht := h.locked_type hr hk
  refine wp_mono iupdate_spec (fun _ s' hs => ?_) fun _ he => he
  subst hs
  obtain ⟨hinv, hnode⟩ := h.inv.update (d := f (s.itable ip).d) hl (by rw [(hf _).1, hent]) (by rw [(hf _).2.1, hent])
    (by rw [(hf _).2.2, hent])
  refine h.contents hr hk hinv (fun jp hj => setD_itable_ne hj) ⟨f (s.itable ip).d, setD_itable_self⟩ ?_
    fun j hj hji => by rw [hnode j hj, if_neg hji]
  rw [hnode i hi, if_pos rfl, hg, hent, h.nlink hi ht, h.node i hi]

/-- `itrunc` of a file. -/
theorem Ctx.itrunc (hr : (ip, i) ∈ L) (hk : ip ∈ K) (hdir : (N i).type ≠ T_DIR) :
    wp (itrunc sb ip) (fun _ s' => Ctx sb s' L K N) (fun _ => False) s := by
  have hl := h.live hr hk
  have hi := h.lt hr
  refine wp_mono (itrunc_spec h.inv.wf h.inv.tab h.inv.blk hl) (fun _ s' he => ?_) fun _ he => he
  obtain ⟨hinv, hnode⟩ := h.inv.truncated hl he (by rw [h.type hi]; exact hdir)
  have hc := h.contents hr hk hinv he.table ⟨_, he.entry⟩ (hnode i hi) fun j hj _ => hnode j hj
  rwa [h.node i hi, Function.update_eq_self] at hc

/-- `writei` to a file. -/
theorem Ctx.writeFile (hr : (ip, i) ∈ L) (hk : ip ∈ K) (hdir : (N i).type ≠ T_DIR) (src : Src)
    (off n : UInt32) : wp (writei sb ip src off n) (fun _ s' => Ctx sb s' L K N) (fun _ => False) s := by
  have hl := h.live hr hk
  have hi := h.lt hr
  have hty : (cur sb s i).type ≠ T_DIR := by
    rw [h.type hi]
    exact hdir
  refine wp_mono (writei_spec h.inv.wf h.inv.tab h.inv.blk hl src off n) (fun r s' hs => ?_) fun _ he => he
  rcases hs with ⟨-, -, rfl⟩ | ⟨hoff, hmax, tot, -, hw⟩
  · exact h
  · rw [h.entry hr hk, UInt32.le_iff_toNat_le] at hoff
    have hinv := h.inv.wrote hl hw hoff hmax fun hd => absurd hd hty
    obtain ⟨a, ha⟩ := hw.entry
    have hc := h.contents hr hk hinv hw.table ⟨_, ha⟩ (hw.node_file h.inv hl hty hi)
      fun j hj _ => hw.node_file h.inv hl hty hj
    rwa [h.node i hi, Function.update_eq_self] at hc

/-- An entry without a reference in `L` is not in use. -/
theorem Ctx.ref_of_pos (hr : 0 < (s.itable ip).ref) : (ip, (s.itable ip).inum) ∈ L := by
  rw [h.ref, Multiset.count_pos] at hr
  obtain ⟨r, hrL, he⟩ := Multiset.mem_map.mp hr
  have := h.inum r hrL
  rw [he] at this
  rw [this, ← he]
  exact hrL

/-- `ialloc`, and the `ilock` that follows it: the inode number is one nobody holds. -/
theorem Ctx.ialloc {type : Int16} (ht : type ≠ 0) (hL : ∀ r ∈ L, (N r.2).type ≠ 0) :
    wp (Fs.ialloc sb ROOTDEV type) (fun r s' => (r = none ∧ Ctx sb s' L K N) ∨
      ∃ ip i, r = some ip ∧ 0 < i ∧ i < sb.ninodes ∧ (N i).type = 0 ∧ ip ∉ K ∧ (∀ r ∈ L, r.1 ≠ ip) ∧
        wp (Fs.ilock sb ip) (fun _ s'' => Ctx sb s'' ((ip, i) ::ₘ L) (ip :: K)
          (Function.update N i ⟨type, 0, [], (N i).gen + 1⟩)) (fun _ => False) s') noInodes s := by
  refine wp_mono (ialloc_spec h.inv.tab type) (fun r s' hs => ?_) fun _ he => he
  rcases hs with ⟨rfl, rfl⟩ | ⟨ip, i, hpos, hi, hfree, ha, rfl, rfl⟩
  · exact Or.inl ⟨rfl, h⟩
  have hNi : (N i).type = 0 := by
    rw [← h.type hi, cur_dead (h.inv.tab.free_dead hfree)]
    exact hfree
  -- the entry was not in use: all references are to allocated inodes
  have hzero : (s.itable ip).ref = 0 := by
    rcases ha with hat | hno
    · have := h.ref_of_pos hat.1
      rw [hat.2] at this
      exact absurd hNi (hL _ this)
    · exact hno.1
  have hnk : ip ∉ K := fun hk => by
    have := (h.valid ip hk).1
    omega
  have hne : ∀ r ∈ L, r.1 ≠ ip := fun r hr he => by
    have := (h.at hr).1
    rw [he] at this
    omega
  refine Or.inr ⟨ip, i, rfl, hpos, hi, hNi, hnk, hne, ?_⟩
  obtain ⟨hinv1, hnode1⟩ := h.inv.take hi hfree ht
  have ha1 : Avail (s.take sb i type) ip i := ha
  set s2 := (s.take sb i type).got ip i with hs2
  have hT2 : TableInv sb s2 := hinv1.tab.got ha1 hi
  obtain ⟨hinv2, hnode2⟩ := hinv1.table hT2 got_disk got_gen fun j _ => hinv1.tab.cur_got ha1 hi
  have hat2 : At s2 ip i := got_at ha1
  have hun2 : (s2.itable ip).locked = false := by
    rw [hs2, got_locked, ← Bool.not_eq_true]
    exact fun hlk => hnk ((h.lock ip).mp hlk)
  have hty2 : (cur sb s2 i).type = type := by
    rw [← node_type, hnode2 i hi, hnode1 i hi, if_pos rfl]
  refine wp_mono (ilock_spec hT2 hat2 hun2) (fun _ s3 h3 => ?_) fun _ he => absurd (hty2.symm.trans he.1) ht
  obtain ⟨ht2, rfl⟩ := h3
  obtain ⟨hinv3, hnode3⟩ := hinv2.table (hT2.lock hat2 ht2) rfl rfl fun j _ => hT2.cur_lock hat2 ht2
  -- other entries are as before
  have hother : ∀ jp, jp ≠ ip → (s2.lock sb ip).itable jp = s.itable jp := fun jp hj => by
    rw [lock_itable, if_neg hj, hs2, got_itable_ne hj]
    rfl
  have hself : (s2.lock sb ip).itable ip = { s2.itable ip with locked := true, valid := true, d := cur sb s2 i } := by
    rw [lock_itable, if_pos rfl, hat2.2]
  refine ⟨hinv3, fun jp => ?_, fun r hr => ?_, fun jp => ?_, fun jp hj => ?_, fun j hj htj hn => ?_, fun j hj => ?_⟩
  · rw [count_cons, ← h.ref]
    by_cases hji : jp = ip
    · rw [hji, hself, if_pos rfl, hs2, got_ref, if_pos rfl]
      rfl
    · rw [hother jp hji, if_neg hji, Nat.add_zero]
  · rcases Multiset.mem_cons.mp hr with rfl | hr
    · rw [hself]
      exact hat2.2
    · rw [hother _ (hne r hr)]
      exact h.inum r hr
  · by_cases hji : jp = ip
    · rw [hji, hself]
      simp
    · rw [hother jp hji, h.lock, List.mem_cons]
      simp [hji]
  · rcases List.mem_cons.mp hj with rfl | hjK
    · rw [hself]
      exact ⟨hat2.1, rfl⟩
    · have hji : jp ≠ ip := fun he => hnk (he ▸ hjK)
      rw [hother jp hji]
      exact h.valid jp hjK
  · by_cases hji : j = i
    · exact ⟨(ip, i), Multiset.mem_cons_self _ _, hji.symm, by rw [hself]⟩
    · rw [Function.update_of_ne hji] at htj hn
      obtain ⟨r, hrL, hrj, hv⟩ := h.held j hj htj hn
      exact ⟨r, Multiset.mem_cons_of_mem hrL, hrj, by rw [hother _ (hne r hrL)]; exact hv⟩
  · rw [hnode3 j hj, hnode2 j hj, hnode1 j hj]
    split_ifs with hji
    · rw [hji, Function.update_self, ← h.node i hi, node_gen]
    · rw [Function.update_of_ne hji, h.node j hj]

end Steps

end Rules

end Xv6.Fs
