import Xv6.Sanity.DirMap
import Xv6.Sanity.Image
import Xv6.Sanity.Mkfs

/-! `dirlookup`, `dirlink` and the clearing of an entry on a directory that is a finite map. -/

namespace Xv6.Fs

open Wp

variable {sb : Superblock} {s s' : State} {L : Multiset (Ip × ℕ)} {K : List Ip} {N : ℕ → Node} {dp : Ip} {d : ℕ}
  {name : List UInt8}

section Operations

/-- A locked inode has a reference. -/
theorem Ctx.key_mem (h : Ctx sb s L K N) {jp : Ip} (hk : jp ∈ K) : ∃ j, (jp, j) ∈ L := by
  have hpos := (h.valid jp hk).1
  rw [h.ref, Multiset.count_pos, Multiset.mem_map] at hpos
  obtain ⟨⟨ip, j⟩, hmem, rfl⟩ := hpos
  exact ⟨j, hmem⟩

theorem got_inum {ip : Ip} {i : ℕ} (h : Avail s ip i) : ((s.got ip i).itable ip).inum = i := by
  rw [State.got]
  rcases h with ⟨hpos, hi⟩ | ⟨hz, -⟩
  · rw [if_pos hpos, setInode_itable_self]
    exact hi
  · rw [if_neg (by omega), setInode_itable_self]

/-- A directory keeps its entries when a reference to an inode is dropped: it has one itself. -/
theorem LockedDir.release (h : LockedDir sb s L K N dp d) {i : ℕ} (hc : Ctx sb s' L K (release N L i)) :
    LockedDir sb s' L K (release N L i) dp d ∧ (release N L i d).ents = (N d).ents := by
  have hsame : Fs.release N L i d = N d := by
    rw [Fs.release]
    split_ifs with hlast
    · exact Function.update_of_ne (fun he => hlast.2.2 _ h.mem he) _ _
    · rfl
  exact ⟨⟨hc, h.mem, h.key, hsame ▸ h.dir⟩, by rw [hsame]⟩

theorem putEnt_dir {k : ℕ} {de : Dirent} : putEnt N d k de d = { N d with ents := setEnt (N d).ents k de } := Function.update_self ..

theorem LockedDir.putEnt (h : LockedDir sb s L K N dp d) {k : ℕ} {de : Dirent} (hc : Ctx sb s' L K (putEnt N d k de)) :
    LockedDir sb s' L K (putEnt N d k de) dp d :=
  ⟨hc, h.mem, h.key, by rw [putEnt_dir]; exact h.dir⟩

/-- What `dirlink` has done to the directory. -/
structure LinkedMap (sb : Superblock) (L : Multiset (Ip × ℕ)) (K : List Ip) (dp : Ip) (d : ℕ) (name : List UInt8) (i : ℕ)
    (ents : List Dirent) (r : ℤ) (s' : State) : Prop where
  locked : ∃ N', LockedDir sb s' L K N' dp d
  distinct : Distinct (dirents sb s' d)
  failed : r ≠ 0 → r = -1 ∧ mapOf (dirents sb s' d) = mapOf ents ∧ (dirents sb s' d).length = ents.length
  fresh : r = 0 → mapOf ents name = none
  linked : r = 0 → ∀ name', mapOf (dirents sb s' d) name' = if stored name' = stored name then some i else mapOf ents name'
  reuse : r = 0 → (dirents sb s' d).length = if ∃ de ∈ ents, de.inum = 0 then ents.length else ents.length + 1

theorem mapOf_none {ents : List Dirent} (h : lookup ents name = none) : mapOf ents name = none := by rw [mapOf, h]; rfl

theorem mapOf_some {ents : List Dirent} {de : Dirent} (h : lookup ents name = some de) : mapOf ents name = some de.inum.toNat := by
  rw [mapOf, h]
  rfl

theorem setEnt_length {ents : List Dirent} {k : ℕ} {de : Dirent} :
    (setEnt ents k de).length = if k < ents.length then ents.length else ents.length + 1 := by
  unfold setEnt
  split_ifs
  · exact List.length_set
  · simp

theorem dirlink_map (h : LockedDir sb s L K N dp d) (hd : Distinct (N d).ents)
    (hrange : ∀ de ∈ (N d).ents, de.inum.toNat < sb.ninodes) (name : List UInt8) {i : ℕ} (hi : 0 < i) (hi' : i < 65536) :
    wp (dirlink sb dp name i) (fun r s' => LinkedMap sb L K dp d name i (N d).ents r s') noInodes s := by
  have hsame : ∀ {s' N'}, LockedDir sb s' L K N' dp d → (N' d).ents = (N d).ents →
      LinkedMap sb L K dp d name i (N d).ents (-1) s' := by
    intro s' N' h' he
    have hents : dirents sb s' d = (N d).ents := h'.ents.symm.trans he
    refine ⟨⟨N', h'⟩, hents ▸ hd, fun _ => ⟨rfl, by rw [hents], by rw [hents]⟩, ?_, ?_, ?_⟩ <;> exact fun h0 => absurd h0 (by decide)
  rw [dirlink, wp_bind]
  refine wp_mono (dirlookup_spec h hrange name) (fun r s1 h1 => ?_) fun _ he => he
  rcases h1 with ⟨rfl, hnone, rfl⟩ | ⟨ip, off, k, de, rfl, -, hde, -, h1⟩
  · simp only [getInode, wp_bind, wp_get, wp_pure]
    refine wp_imp (emptyFrom_spec h _ (by rfl) (Nat.zero_le _) ?_ fun m hm => absurd hm (Nat.not_lt_zero m)) fun off s2 h2 => ?_
    · rw [h.size, Nat.mul_div_cancel_left _ (by decide)]
      omega
    obtain ⟨rfl, k, hoff, hk, hempty, hused⟩ := h2
    refine wp_imp (h.writei hoff hk dirent_length) fun r s3 h3 => ?_
    rw [wp_ite]
    rcases h3 with ⟨hr, -, h3⟩ | ⟨hr, h3⟩
    · exact ⟨fun _ => hsame ⟨h3, h.mem, h.key, h.dir⟩ rfl, fun hno => absurd hr hno⟩
    · refine ⟨fun hno => absurd hr hno, fun _ => ?_⟩
      rw [dirent_decode] at h3
      have h' := h.putEnt h3
      have hents : dirents sb s3 d = setEnt (N d).ents k ⟨UInt16.ofNat i, stored name⟩ := by
        rw [← h'.ents, putEnt_dir]
        rfl
      have hinum : (UInt16.ofNat i).toNat = i := UInt16.toNat_ofNat_of_lt' hi'
      have hnz : UInt16.ofNat i ≠ 0 := by
        intro hz
        rw [hz] at hinum
        exact absurd hinum (by simp; omega)
      have hname := stored_stored name
      refine ⟨⟨_, h'⟩, ?_, fun hne => absurd rfl hne, fun _ => mapOf_none hnone, fun _ name' => ?_, fun _ => ?_⟩
      · rw [hents]
        exact distinct_insert hd hk hnone hname
      · rw [hents, mapOf, lookup_insert hd hk hnone hname hempty hnz, apply_ite (Option.map _), Option.map_some, hinum]
        rfl
      · rw [hents, setEnt_length]
        refine if_congr ⟨fun hlt => ?_, fun hex => ?_⟩ rfl rfl
        · exact ⟨_, List.getElem_mem hlt, hempty _ (List.getElem?_eq_getElem hlt)⟩
        · obtain ⟨de, hmem, hz⟩ := hex
          obtain ⟨m, hm⟩ := List.getElem?_of_mem hmem
          have hlt := (List.getElem?_eq_some_iff.mp hm).1
          by_contra hge
          exact hused m (by omega) de hm hz
  · simp only [wp_bind, wp_pure]
    refine wp_imp (h1.iput fun hK => ?_) fun _ s2 h2 => ?_
    · obtain ⟨j, hj⟩ := h.ctx.key_mem hK
      rwa [h1.uniq_inum (Multiset.mem_cons_of_mem hj) (Multiset.mem_cons_self _ _)] at hj
    · obtain ⟨h', he⟩ := h.release h2
      exact hsame h' he

/-- The entry at the offset that `dirlookup` has reported is cleared. -/
theorem unlink_map (h : LockedDir sb s L K N dp d) (hd : Distinct (N d).ents)
    (hrange : ∀ de ∈ (N d).ents, de.inum.toNat < sb.ninodes) {ip : Ip} {off : UInt32} {s1 : State}
    (hrun : dirlookup sb dp name s = .ok (some (ip, off), s1)) :
    ∃ s2 N', writei sb dp (.kernel (List.replicate DIRENT 0)) off 16 s1 = .ok ((DIRENT : ℕ), s2) ∧
      LockedDir sb s2 ((ip, (s1.itable ip).inum) ::ₘ L) K N' dp d ∧ Distinct (dirents sb s2 d) ∧
      ∀ name', mapOf (dirents sb s2 d) name' = if stored name' = stored name then none else mapOf (N d).ents name' := by
  rcases wp_ok (dirlookup_spec h hrange name) hrun with ⟨hr, -⟩ | ⟨ip', off', k, de, hr, hoff, hde, hlook, h1⟩
  · cases hr
  cases hr
  rw [h1.inum _ (Multiset.mem_cons_self _ _)]
  have hlocked : LockedDir sb s1 ((ip, de.inum.toNat) ::ₘ L) K N dp d := ⟨h1, Multiset.mem_cons_of_mem h.mem, h.key, h.dir⟩
  have hlt := (List.getElem?_eq_some_iff.mp hde).1
  obtain ⟨r, s2, hw, hres⟩ := wp_returns (hlocked.writei hoff hlt.le (List.length_replicate ..))
  rcases hres with ⟨-, hge, -⟩ | ⟨rfl, h2⟩
  · omega
  have hzero : Dirent.decode (List.replicate DIRENT 0) = emptyEnt := by decide
  rw [hzero] at h2
  have h' := hlocked.putEnt h2
  have hents : dirents sb s2 d = setEnt (N d).ents k emptyEnt := by
    rw [← h'.ents, putEnt_dir]
  obtain ⟨k', hk', hm⟩ := (lookup_eq_some_iff hd).mp hlook
  refine ⟨s2, _, hw, h', ?_, fun name' => ?_⟩
  · rw [hents]
    exact distinct_erase hd hde
  · rw [hents, mapOf, lookup_erase hd hde hm, apply_ite (Option.map _)]
    rfl

end Operations

/-- **A directory is a finite map.** Let `dp` be locked, its names distinct. `dirlookup` answers from the map of the entries.
`dirlink` succeeds only if the name is not there, and then adds it; if it fails the map is as before; it takes a cleared entry
if there is one. Clearing the entry that `dirlookup` has found takes the name away. Each of them leaves the names distinct, and
none of the three functions panics, but for want of an entry of the inode table. -/
theorem directory_is_map (h : LockedDir sb s L K N dp d) (hd : Distinct (dirents sb s d))
    (hrange : ∀ de ∈ dirents sb s d, de.inum.toNat < sb.ninodes) :
    (s.itable dp).d.size.toNat = DIRENT * (dirents sb s d).length ∧
    (∀ name r s', dirlookup sb dp name s = .ok (r, s') → s'.disk = s.disk ∧
      mapOf (dirents sb s d) name = r.map fun x => (s'.itable x.1).inum) ∧
    (∀ name i r s', 0 < i → i < 65536 → dirlink sb dp name i s = .ok (r, s') →
      LinkedMap sb L K dp d name i (dirents sb s d) r s' ∧
      ∀ name' r' s'', dirlookup sb dp name' s' = .ok (r', s'') →
        mapOf (dirents sb s' d) name' = r'.map fun x => (s''.itable x.1).inum) ∧
    (∀ name ip off s1, dirlookup sb dp name s = .ok (some (ip, off), s1) →
      ∃ s2 N', writei sb dp (.kernel (List.replicate DIRENT 0)) off 16 s1 = .ok ((DIRENT : ℕ), s2) ∧
        LockedDir sb s2 ((ip, (s1.itable ip).inum) ::ₘ L) K N' dp d ∧ Distinct (dirents sb s2 d) ∧
        ∀ name', mapOf (dirents sb s2 d) name' = if stored name' = stored name then none else mapOf (dirents sb s d) name') ∧
    (∀ name e, dirlookup sb dp name s = .error e → e = .panic "iget: no inodes") ∧
    (∀ name i e, 0 < i → i < 65536 → dirlink sb dp name i s = .error e → e = .panic "iget: no inodes") ∧
    ∃ b, isdirempty sb dp s = .ok (b, s) := by
  have hfinds : ∀ {s N}, LockedDir sb s L K N dp d → ∀ name r s', dirlookup sb dp name s = .ok (r, s') → s'.disk = s.disk ∧
      mapOf (dirents sb s d) name = r.map fun x => (s'.itable x.1).inum := by
    intro s N h name r s' hrun
    rw [← h.ents]
    rcases wp_ok (dirlookup_scan h name) hrun with ⟨rfl, hnone, rfl⟩ | ⟨ip, off, k, de, rfl, -, -, hlook, ha, rfl⟩
    · exact ⟨rfl, mapOf_none hnone⟩
    · refine ⟨got_disk .., (mapOf_some hlook).trans (congrArg some ?_)⟩
      exact (got_inum ha).symm
  have hsize := h.size
  rw [← h.ents] at hd hrange ⊢
  refine ⟨hsize, fun name r s' hrun => ?_, fun name i r s' h0 h1 hrun => ?_, fun name ip off s1 hrun => unlink_map h hd hrange hrun,
    fun name e hrun => ?_, fun name i e h0 h1 hrun => ?_, ?_⟩
  · rw [h.ents]
    exact hfinds h name r s' hrun
  · have hlink := wp_ok (dirlink_map h hd hrange name h0 h1) hrun
    refine ⟨hlink, fun name' r' s'' hrun' => ?_⟩
    obtain ⟨N', h'⟩ := hlink.locked
    exact (hfinds h' name' r' s'' hrun').2
  · exact (wp_error (dirlookup_scan h name) hrun).1
  · exact (wp_error (dirlink_map h hd hrange name h0 h1) hrun : noInodes e)
  · obtain ⟨b, s', hrun, rfl, -⟩ := wp_returns (isdirempty_spec h)
    exact ⟨b, hrun⟩

/-- In the root directory of a new disk `"f"` is linked to inode 5, and found. -/
theorem linkF_runs : ((ireclaim smallSb ROOTDEV (.first (mkfs smallSb))).toOption.any fun x =>
    (ilock smallSb 0 x.2).toOption.any fun y => decide (Distinct (dirents smallSb y.2 ROOTINO)) &&
      (dirents smallSb y.2 ROOTINO).all (fun de => decide (de.inum.toNat < smallSb.ninodes)) &&
      (dirlink smallSb 0 [102] 5 y.2).toOption.any fun z => decide (z.1 = 0) &&
        (dirlookup smallSb 0 [102] z.2).toOption.any fun _ => true) = true := by
  decide +kernel

theorem directory_is_map_linkF : ∃ s s' s'' ip off, dirlink smallSb 0 [102] 5 s = .ok (0, s') ∧
    dirlookup smallSb 0 [102] s' = .ok (some (ip, off), s'') ∧ (s''.itable ip).inum = 5 := by
  obtain ⟨s0, h0, hp⟩ := (mkfs_image smallSb_fits).start
  have hruns := linkF_runs
  rw [h0] at hruns
  have h := (hp.tidy (mkfs_image smallSb_fits)).ctx
  obtain ⟨⟨⟨⟩, s⟩, hlock, hruns⟩ := ok_of_any (show (ilock smallSb 0 s0).toOption.any _ = true from hruns)
  simp only [Bool.and_eq_true, decide_eq_true_eq, List.all_eq_true] at hruns
  obtain ⟨⟨hd, hrange⟩, hruns⟩ := hruns
  obtain ⟨⟨r, s'⟩, hlink, hruns⟩ := ok_of_any hruns
  simp only [Bool.and_eq_true, decide_eq_true_eq] at hruns
  obtain ⟨rfl, hruns⟩ := hruns
  obtain ⟨⟨res, s''⟩, hlook, -⟩ := ok_of_any hruns
  obtain ⟨-, h1⟩ := wp_ok (h.ilock (Multiset.mem_singleton_self _) (List.not_mem_nil)) hlock
  have hlocked : LockedDir smallSb s {(0, ROOTINO)} [0] (node smallSb s0) 0 ROOTINO :=
    ⟨h1, Multiset.mem_singleton_self _, List.mem_singleton_self _, by rw [hp.rootDir (mkfs_image smallSb_fits)]⟩
  obtain ⟨-, -, hmap, -⟩ := directory_is_map hlocked hd hrange
  obtain ⟨hlinked, hfinds⟩ := hmap [102] 5 0 s' (by decide) (by decide) hlink
  have hfound := hfinds [102] res s'' hlook
  rw [hlinked.linked rfl, if_pos rfl] at hfound
  obtain ⟨⟨ip, off⟩, rfl, hinum⟩ := Option.map_eq_some_iff.mp hfound.symm
  exact ⟨s, s', s'', ip, off, hlink, hlook, hinum⟩

end Xv6.Fs
