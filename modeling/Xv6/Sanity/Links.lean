import Xv6.Sanity.Create

/-! What `mkdir`, `mknod`, `link` and `unlink` do to the nodes. -/

namespace Xv6.Fs

open Wp

variable {sb : Superblock} {s : State} {L : Multiset (Ip × ℕ)} {K : List Ip} {N : ℕ → Node} {dp ip cp : Ip} {d i c : ℕ}

theorem Ctx.beginOp (h : Ctx sb s L K N) : wp beginOp (fun _ s' => Ctx sb s' L K N) (fun _ => False) s :=
  h.tx rfl rfl rfl

theorem Ctx.endOp (h : Ctx sb s L K N) : wp endOp (fun _ s' => Ctx sb s' L K N) (fun _ => False) s :=
  h.tx rfl rfl rfl

section Mknod

variable {type major minor : Int16}

/-- How `mkdir` and `mknod` end. -/
inductive Mknod (sb : Superblock) (N : ℕ → Node) (L : Multiset (Ip × ℕ)) (c : ℕ) (path : Option (List UInt8)) (type : Int16)
    (s' : State) : ℤ → Prop
  | failed {N' : ℕ → Node} (hN : Unmade N N') (h : Ctx sb s' L [] N') : Mknod sb N L c path type s' (-1)
  | made {p name : List UInt8} {ip : Ip} {i d k : ℕ} (hp : argstr path = some p) (hw : WalkParent N (start c p) (elems p) d name)
      (hv : Vacant sb.ninodes N d i k name)
      (h : Ctx sb s' L [] (release (release (made N d i k name type) ((ip, i) ::ₘ L) d) L i)) : Mknod sb N L c path type s' 0

theorem mknodType_spec (h : Ctx sb s L [] N) (hr : Ready sb L N cp c) (htype : type = T_DIR ∨ type = T_DEVICE)
    (path : Option (List UInt8)) :
    wp (mknodType sb cp path type major minor) (fun r s' => Mknod sb N L c path type s' r) (Astray sb.ninodes N c) s := by
  rw [mknodType, wp_bind]
  refine wp_imp h.beginOp fun _ s1 h1 => ?_
  cases hp : argstr path with
  | none =>
    simp only [wp_bind, wp_pure]
    exact wp_imp h1.endOp fun _ s2 h2 => .failed (.inl rfl) h2
  | some p =>
    have hnz : type ≠ 0 := by
      rintro rfl
      exact absurd htype (by decide)
    simp only [wp_bind]
    refine wp_mono (create_spec h1 hr hnz p) (fun r s2 h2 => ?_) fun _ he => he
    cases h2 with
    | failed hN h2 =>
      simp only [wp_bind, wp_pure]
      exact wp_imp h2.endOp fun _ s3 h3 => .failed hN h3
    | found hfile =>
      subst hfile
      exact absurd htype (by decide)
    | new hw hv h2 =>
      simp only [wp_bind, wp_pure]
      refine wp_imp (h2.iunlockput List.not_mem_nil) fun _ s3 h3 => ?_
      exact wp_imp h3.endOp fun _ s4 h4 => .made hp hw hv h4

end Mknod

section Link

variable {name : List UInt8} {k : ℕ} {de : Dirent}

/-- Entries and links of other inodes do not matter to whether a reference is the last one. -/
theorem Last.congr {N' : ℕ → Node} (ht : (N' i).type = (N i).type) (hn : (N' i).nlink = (N i).nlink) :
    Last N' L i ↔ Last N L i := by
  rw [Last, Last, ht, hn]

theorem putEnt_self : putEnt N d k de d = { N d with ents := setEnt (N d).ents k de } := Function.update_self ..

theorem putEnt_of_ne {j : ℕ} (h : j ≠ d) : putEnt N d k de j = N j := Function.update_of_ne h _ _

theorem putEnt_type (j : ℕ) : (putEnt N d k de j).type = (N j).type := by
  by_cases h : j = d
  · rw [h, putEnt_self]
  · rw [putEnt_of_ne h]

theorem putEnt_nlink (j : ℕ) : (putEnt N d k de j).nlink = (N j).nlink := by
  by_cases h : j = d
  · rw [h, putEnt_self]
  · rw [putEnt_of_ne h]

/-- The nodes with the link count of `i` changed. -/
def relink (N : ℕ → Node) (i : ℕ) (n : Int16) : ℕ → Node := Function.update N i { N i with nlink := (N i).nlink + n }

section Relink

variable {n : Int16} {j : ℕ} {es : List (List UInt8)}

theorem relink_type (j : ℕ) : (relink N i n j).type = (N j).type := by
  by_cases h : j = i
  · rw [h, relink, Function.update_self]
  · rw [relink, Function.update_of_ne h]

theorem relink_ents (j : ℕ) : (relink N i n j).ents = (N j).ents := by
  by_cases h : j = i
  · rw [h, relink, Function.update_self]
  · rw [relink, Function.update_of_ne h]

theorem relink_nlink : (relink N i n i).nlink = (N i).nlink + n := by rw [relink, Function.update_self]

theorem relink_of_ne (h : j ≠ i) : relink N i n j = N j := Function.update_of_ne h _ _

theorem relink_relink (m : Int16) : relink (relink N i n) i m = relink N i (n + m) := by
  rw [relink, relink_nlink, relink, Function.update_self, Function.update_idem, Int16.add_assoc, ← relink]

theorem relink_zero : relink N i 0 = N := by rw [relink, Int16.add_zero, Function.update_eq_self]

/-- Paths do not depend on link counts. -/
theorem walk_relink : walk (relink N i n) j es = walk N j es := by
  induction es generalizing j with
  | nil => rfl
  | cons x es ih => simp only [walk, relink_type, relink_ents, ih]

theorem walkParent_relink {name : List UInt8} : WalkParent (relink N i n) j es d name ↔ WalkParent N j es d name := by
  simp only [WalkParent, walk_relink, relink_type]

theorem astray_relink {e : Stop} : Astray sb.ninodes (relink N i n) c e ↔ Astray sb.ninodes N c e := by
  simp only [Astray, Closed, relink_type, relink_ents]

theorem spare_relink {k : ℕ} {name : List UInt8} (h : Spare (relink N i n) d k name) : Spare N d k name := by
  obtain ⟨h1, h2, h3⟩ := h
  rw [relink_ents] at h1 h2 h3
  exact ⟨h1, h2, h3⟩

theorem Ready.relink (h : Ready sb L N cp c) (hi : (N i).type ≠ 0) (ip : Ip) : Ready sb ((ip, i) ::ₘ L) (relink N i n) cp c := by
  refine ⟨fun j hj hd de hde => ?_, fun r hr => ?_, Multiset.mem_cons_of_mem h.cwd, h.root⟩
  · rw [relink_type] at hd
    rw [relink_ents] at hde
    exact h.range j hj hd de hde
  · rw [relink_type]
    rcases Multiset.mem_cons.mp hr with rfl | hr
    · exact hi
    · exact h.alive r hr

end Relink

/-- The middle of `link`, with a reference to `i` in hand. -/
theorem linkName_spec (h : Ctx sb s ((ip, i) ::ₘ L) [] N) (hr : Ready sb ((ip, i) ::ₘ L) N cp c) (path : List UInt8) :
    wp (linkName sb cp ip path) (fun r s' => (r = false ∧ Ctx sb s' ((ip, i) ::ₘ L) [] N) ∨
      ∃ d k name, r = true ∧ WalkParent N (start c path) (elems path) d name ∧ Spare N d k name ∧
        Ctx sb s' ((ip, i) ::ₘ L) [] (putEnt N d k ⟨UInt16.ofNat i, stored name⟩)) (Astray sb.ninodes N c) s := by
  rw [linkName, wp_bind]
  refine wp_mono (nameiparent_spec h hr path) (fun r s1 h1 => ?_) fun _ he => he
  rcases h1 with ⟨rfl, h1⟩ | ⟨dp, d, name, rfl, hw, h1⟩
  · exact .inl ⟨rfl, h1⟩
  have hmem := Multiset.mem_cons_self (dp, d) ((ip, i) ::ₘ L)
  have hip : (ip, i) ∈ (dp, d) ::ₘ (ip, i) ::ₘ L := Multiset.mem_cons_of_mem (Multiset.mem_cons_self _ _)
  have hdir : (N d).type = T_DIR := hw.choose_spec.2.2
  have hdn : d < sb.ninodes := h1.lt hmem
  simp only [getInode, wp_bind, wp_get, wp_pure]
  refine wp_mono (h1.ilock hmem List.not_mem_nil) (fun _ s2 h2 => ?_) fun _ he => absurd (hdir.symm.trans he.1) (by decide)
  obtain ⟨-, h2⟩ := h2
  have hkeep : ¬ Last N ((ip, i) ::ₘ L) d := h.kept.not_last hdn
  rw [wp_ite, h2.dev hmem, h2.dev hip]
  refine ⟨fun hne => absurd rfl hne, fun _ => ?_⟩
  rw [wp_bind, show (s2.itable ip).inum = i from h2.inum (ip, i) hip]
  have hkeys : ∀ jp ∈ [dp], ∃ j, (jp, j) ∈ (dp, d) ::ₘ (ip, i) ::ₘ L := by
    simp only [List.mem_singleton, forall_eq]
    exact ⟨d, hmem⟩
  refine wp_mono (dirlink_spec ⟨h2, hmem, List.mem_cons_self, hdir⟩ (hr.range d hdn hdir) (fun j hj => h2.kept.not_last hj)
    hkeys name i) (fun r s3 h3 => ?_) fun _ he => astray_of_noInodes he
  simp only [wp_bind, wp_pure]
  rcases h3 with ⟨rfl, h3⟩ | ⟨rfl, N3, hlink, h3⟩
  · exact wp_imp (h3.iunlockput_keep List.not_mem_nil hkeep) fun _ s4 h4 => .inl ⟨rfl, h4⟩
  · obtain ⟨k, hk, hempty, rfl⟩ := hlink.put
    have hkeep' : ¬ Last (putEnt N d k ⟨UInt16.ofNat i, stored name⟩) ((ip, i) ::ₘ L) d := by
      rwa [Last.congr (putEnt_type d) (putEnt_nlink d)]
    exact wp_imp (h3.iunlockput_keep List.not_mem_nil hkeep') fun _ s4 h4 =>
      .inr ⟨d, k, name, rfl, hw, ⟨hlink.fresh, hk, hempty⟩, h4⟩

/-- How `link` ends. -/
inductive Linkage (sb : Superblock) (N : ℕ → Node) (L : Multiset (Ip × ℕ)) (c : ℕ) (old new : Option (List UInt8))
    (s' : State) : ℤ → Prop
  | failed (h : Ctx sb s' L [] N) : Linkage sb N L c old new s' (-1)
  | linked {p q name : List UInt8} {i d k : ℕ} (hold : argstr old = some p) (hnew : argstr new = some q)
      (hi : walk N (start c p) (elems p) = some i) (hfile : (N i).type ≠ T_DIR) (hlt : i < sb.ninodes)
      (hw : WalkParent N (start c q) (elems q) d name) (hf : Spare N d k name)
      (h : Ctx sb s' L [] (release (putEnt (relink N i 1) d k ⟨UInt16.ofNat i, stored name⟩) L i)) :
      Linkage sb N L c old new s' 0

theorem link_spec (h : Ctx sb s L [] N) (hr : Ready sb L N cp c) (old new : List UInt8) :
    wp (link sb cp old new) (fun r s' => (r = -1 ∧ Ctx sb s' L [] N) ∨ ∃ i d k name, r = 0 ∧
      walk N (start c old) (elems old) = some i ∧ (N i).type ≠ T_DIR ∧ i < sb.ninodes ∧
      WalkParent N (start c new) (elems new) d name ∧ Spare N d k name ∧
      Ctx sb s' L [] (release (putEnt (relink N i 1) d k ⟨UInt16.ofNat i, stored name⟩) L i)) (Astray sb.ninodes N c) s := by
  rw [link, wp_bind]
  refine wp_imp h.beginOp fun _ s1 h1 => ?_
  rw [wp_bind]
  refine wp_mono (namei_spec h1 hr old) (fun r s2 h2 => ?_) fun _ he => he
  rcases h2 with ⟨rfl, h2⟩ | ⟨ip, i, rfl, hw, h2⟩
  · simp only [wp_bind, wp_pure]
    exact wp_imp h2.endOp fun _ s3 h3 => .inl ⟨trivial, h3⟩
  have hmem := Multiset.mem_cons_self (ip, i) L
  have hkeep : ¬ Last N L i := h.kept.not_last (h2.lt hmem)
  simp only [getInode, wp_bind, wp_get, wp_pure]
  refine wp_mono (h2.ilock hmem List.not_mem_nil) (fun _ s3 h3 => ?_) fun _ he _ hc hroot _ =>
    hr.walk_type h hc hroot hw he.1
  obtain ⟨hnz, h3⟩ := h3
  rw [wp_ite, h3.entry hmem List.mem_cons_self, h3.type (h3.lt hmem)]
  refine ⟨fun _ => ?_, fun hfile => ?_⟩
  · simp only [wp_bind, wp_pure]
    refine wp_imp (h3.iunlockput_keep List.not_mem_nil hkeep) fun _ s4 h4 => ?_
    exact wp_imp h4.endOp fun _ s5 h5 => .inl ⟨trivial, h5⟩
  simp only [wp_bind, wp_setD]
  refine wp_imp (h3.update hmem List.mem_cons_self (f := fun d => { d with nlink := d.nlink + 1 }) (g := fun n => n + 1)
    (fun _ => ⟨rfl, rfl, rfl⟩) fun _ => rfl) fun _ s4 h4 => ?_
  change Ctx sb s4 ((ip, i) ::ₘ L) [ip] (relink N i 1) at h4
  refine wp_imp (h4.iunlock hmem List.not_mem_nil) fun _ s5 h5 => ?_
  refine wp_mono (linkName_spec h5 (hr.relink hnz ip) new) (fun ok s6 h6 => ?_) fun _ he => astray_relink.mp he
  rw [wp_ite]
  rcases h6 with ⟨rfl, h6⟩ | ⟨d, k, name, rfl, hwp, hf, h6⟩
  · refine ⟨by simp, fun _ => ?_⟩
    simp only [wp_bind, wp_pure]
    refine wp_mono (h6.ilock hmem List.not_mem_nil) (fun _ s7 h7 => ?_) fun _ he => absurd he.1 (by rwa [relink_type])
    obtain ⟨-, h7⟩ := h7
    simp only [wp_setD]
    refine wp_imp (h7.update hmem List.mem_cons_self (f := fun d => { d with nlink := d.nlink - 1 }) (g := fun n => n + -1)
      (fun _ => ⟨rfl, rfl, rfl⟩) fun _ => Int16.sub_eq_add_neg _ _) fun _ s8 h8 => ?_
    change Ctx sb s8 ((ip, i) ::ₘ L) [ip] (relink (relink N i 1) i (-1)) at h8
    rw [relink_relink, show (1 : Int16) + -1 = 0 by decide, relink_zero] at h8
    refine wp_imp (h8.iunlockput_keep List.not_mem_nil hkeep) fun _ s9 h9 => ?_
    exact wp_imp h9.endOp fun _ s10 h10 => .inl ⟨trivial, h10⟩
  · refine ⟨fun _ => ?_, fun hno => absurd rfl hno⟩
    simp only [wp_bind, wp_pure]
    refine wp_imp (h6.iput fun hk => absurd hk List.not_mem_nil) fun _ s7 h7 => ?_
    exact wp_imp h7.endOp fun _ s8 h8 =>
      .inr ⟨i, d, k, name, trivial, hw, hfile, h2.lt hmem, walkParent_relink.mp hwp, spare_relink hf, h8⟩

theorem sysLink_spec (h : Ctx sb s L [] N) (hr : Ready sb L N cp c) (old new : Option (List UInt8)) :
    wp (sysLink sb cp old new) (fun r s' => Linkage sb N L c old new s' r) (Astray sb.ninodes N c) s := by
  unfold sysLink
  split
  · rename_i p q hold hnew
    refine wp_mono (link_spec h hr p q) (fun r s1 h1 => ?_) fun _ he => he
    rcases h1 with ⟨rfl, h1⟩ | ⟨i, d, k, name, rfl, hi, hfile, hlt, hw, hf, h1⟩
    · exact .failed h1
    · exact .linked hold hnew hi hfile hlt hw hf h1
  · exact .failed h

end Link

section Unlink

/-- An entry that is not in use. -/
def emptyEnt : Dirent := ⟨0, List.replicate DIRSIZ 0⟩

/-- The nodes after entry `k` of directory `d`, which named `i`, is gone: while `i` is still held, and at the end. -/
def unnamed (N : ℕ → Node) (d i k : ℕ) : ℕ → Node :=
  let N' := putEnt N d k emptyEnt
  if (N i).type = T_DIR then relink N' d (-1) else N'

def unlinked (N : ℕ → Node) (L : Multiset (Ip × ℕ)) (ip : Ip) (d i k : ℕ) : ℕ → Node :=
  release (relink (release (unnamed N d i k) ((ip, i) ::ₘ L) d) i (-1)) L i

/-- Entry `k` of directory `d` names `i` and may go. -/
structure Removable (sb : Superblock) (N : ℕ → Node) (d i k : ℕ) (name : List UInt8) : Prop where
  ne : i ≠ d
  lt : i < sb.ninodes
  dlt : d < sb.ninodes
  dir : (N d).type = T_DIR
  entry : ∃ de, (N d).ents[k]? = some de ∧ lookup (N d).ents name = some de ∧ i = de.inum.toNat
  alloc : (N i).type ≠ 0
  linked : 1 ≤ (N i).nlink
  empty : (N i).type = T_DIR → ∀ m, 2 ≤ m → ∀ e, (N i).ents[m]? = some e → e.inum = 0

/-- The end of `unlinkEntry`: the directory is let go of, then the inode. -/
def unlinkLast (sb : Superblock) (dp ip : Ip) : FsM ℤ := do
  iunlockput sb dp
  setD ip fun d => { d with nlink := d.nlink - 1 }
  iupdate sb ip
  iunlockput sb ip
  endOp
  return 0

/-- `unlinkEntry` once it is known whether the directory is in use. -/
def unlinkEnd (sb : Superblock) (dp ip : Ip) (off : UInt32) (busy : Bool) : FsM ℤ :=
  if busy then do
    iunlockput sb ip
    iunlockput sb dp
    endOp
    return -1
  else do
    let r ← writei sb dp (.kernel (List.replicate DIRENT 0)) off 16
    if r ≠ DIRENT then panic "unlink: writei"
    else do
      let e ← getInode ip
      if e.d.type = T_DIR then do
        setD dp fun d => { d with nlink := d.nlink - 1 }
        iupdate sb dp
        unlinkLast sb dp ip
      else unlinkLast sb dp ip

theorem unlinkEntry_eq (off : UInt32) : unlinkEntry sb dp ip off = (do
    let e ← getInode ip
    if e.d.nlink < 1 then panic "unlink: nlink < 1"
    else if e.d.type = T_DIR then do
      let empty ← isdirempty sb ip
      unlinkEnd sb dp ip off (!empty)
    else unlinkEnd sb dp ip off false) := rfl

section End

variable {k : ℕ} {off : UInt32} (hc : Ctx sb s ((ip, i) ::ₘ (dp, d) ::ₘ L) [ip, dp] N) (hne : ip ≠ dp)

include hc hne

theorem unlinkEnd_busy (hkept : Kept sb.ninodes N L) :
    wp (unlinkEnd sb dp ip off true) (fun r s' => r = -1 ∧ Ctx sb s' L [] N) (fun _ => False) s := by
  have hi := hc.lt (Multiset.mem_cons_self _ _)
  have hd := hc.lt (Multiset.mem_cons_of_mem (Multiset.mem_cons_self _ _))
  rw [unlinkEnd, if_pos rfl]
  simp only [wp_bind, wp_pure]
  refine wp_imp (hc.iunlockput_keep (by simpa using hne) ((hkept.mono (Multiset.le_cons_self L _)).not_last hi)) fun _ s1 h1 => ?_
  refine wp_imp (h1.iunlockput_keep List.not_mem_nil (hkept.not_last hd)) fun _ s2 h2 => ?_
  exact wp_imp h2.endOp fun _ s3 h3 => ⟨trivial, h3⟩

theorem unlinkLast_spec :
    wp (unlinkLast sb dp ip) (fun r s' => r = 0 ∧ Ctx sb s' L []
      (release (relink (release N ((ip, i) ::ₘ L) d) i (-1)) L i)) (fun _ => False) s := by
  rw [Multiset.cons_swap] at hc
  have hkeys : ∀ jp, jp ∈ [ip, dp] ↔ jp ∈ [dp, ip] := fun jp => by simp [or_comm]
  simp only [unlinkLast, wp_bind, wp_pure, wp_setD]
  refine wp_imp ((hc.keys hkeys).iunlockput (by simpa using hne.symm)) fun _ s2 h2 => ?_
  refine wp_imp (h2.update (Multiset.mem_cons_self _ _) List.mem_cons_self (f := fun d => { d with nlink := d.nlink - 1 })
    (g := fun n => n + -1) (fun _ => ⟨rfl, rfl, rfl⟩) fun _ => Int16.sub_eq_add_neg _ _) fun _ s3 h3 => ?_
  refine wp_imp (h3.iunlockput List.not_mem_nil) fun _ s4 h4 => ?_
  exact wp_imp h4.endOp fun _ s5 h5 => ⟨trivial, h5⟩

theorem unlinkEnd_spec (hdir : (N d).type = T_DIR) (hoff : off.toNat = DIRENT * k) (hk : k < (N d).ents.length) :
    wp (unlinkEnd sb dp ip off false) (fun r s' => r = 0 ∧ Ctx sb s' L [] (unlinked N L ip d i k)) (fun _ => False) s := by
  have hip := Multiset.mem_cons_self (ip, i) ((dp, d) ::ₘ L)
  have hdp : (dp, d) ∈ (ip, i) ::ₘ (dp, d) ::ₘ L := Multiset.mem_cons_of_mem (Multiset.mem_cons_self _ _)
  rw [unlinkEnd, if_neg (by decide), wp_bind]
  refine wp_imp (LockedDir.writei ⟨hc, hdp, by simp, hdir⟩ hoff hk.le (List.length_replicate ..)) fun r s1 h1 => ?_
  rw [wp_ite]
  rcases h1 with ⟨-, hlen, -⟩ | ⟨hr, h1⟩
  · omega
  refine ⟨fun hno => absurd hr hno, fun _ => ?_⟩
  have hzero : Dirent.decode (List.replicate DIRENT 0) = emptyEnt := by decide
  rw [hzero] at h1
  simp only [getInode, wp_bind, wp_get, wp_pure]
  rw [h1.entry hip List.mem_cons_self, h1.type (h1.lt hip), putEnt_type, wp_ite]
  unfold unlinked unnamed
  refine ⟨fun ht => ?_, fun ht => ?_⟩
  · simp only [wp_bind, wp_setD]
    rw [if_pos ht]
    refine wp_imp (h1.update hdp (by simp) (f := fun d => { d with nlink := d.nlink - 1 }) (g := fun n => n + -1)
      (fun _ => ⟨rfl, rfl, rfl⟩) fun _ => Int16.sub_eq_add_neg _ _) fun _ s2 h2 => ?_
    exact unlinkLast_spec h2 hne
  · rw [if_neg ht]
    exact unlinkLast_spec h1 hne

end End

/-- How `unlink` ends. -/
inductive Unlinked (sb : Superblock) (N : ℕ → Node) (L : Multiset (Ip × ℕ)) (c : ℕ) (path : Option (List UInt8))
    (s' : State) : ℤ → Prop
  | failed (h : Ctx sb s' L [] N) : Unlinked sb N L c path s' (-1)
  | done {p name : List UInt8} {ip : Ip} {i d k : ℕ} (hp : argstr path = some p)
      (hw : WalkParent N (start c p) (elems p) d name) (hdots : namecmp name dot ≠ 0 ∧ namecmp name dotdot ≠ 0)
      (hrem : Removable sb N d i k name) (h : Ctx sb s' L [] (unlinked N L ip d i k)) : Unlinked sb N L c path s' 0

theorem unlinkEntry_spec {k : ℕ} {off : UInt32} {name : List UInt8} {de : Dirent} (hkept : Kept sb.ninodes N L)
    (hc : Ctx sb s ((ip, i) ::ₘ (dp, d) ::ₘ L) [ip, dp] N) (hne : ip ≠ dp) (hid : i ≠ d) (hdir : (N d).type = T_DIR)
    (hoff : off.toNat = DIRENT * k) (hk : (N d).ents[k]? = some de) (hl : lookup (N d).ents name = some de)
    (hi : i = de.inum.toNat) :
    wp (unlinkEntry sb dp ip off) (fun r s' => (r = -1 ∧ Ctx sb s' L [] N) ∨
      (r = 0 ∧ Removable sb N d i k name ∧ Ctx sb s' L [] (unlinked N L ip d i k))) (fun e => ¬ noType e) s := by
  have hip := Multiset.mem_cons_self (ip, i) ((dp, d) ::ₘ L)
  have hdp : (dp, d) ∈ (ip, i) ::ₘ (dp, d) ::ₘ L := Multiset.mem_cons_of_mem (Multiset.mem_cons_self _ _)
  have hnz : (N i).type ≠ 0 := hc.locked_type hip List.mem_cons_self
  rw [unlinkEntry_eq]
  simp only [getInode, wp_bind, wp_get, wp_pure]
  rw [wp_ite, hc.entry hip List.mem_cons_self, hc.nlink (hc.lt hip) hnz, hc.type (hc.lt hip)]
  refine ⟨fun _ => ?_, fun hlinked => ?_⟩
  · rw [panic, wp_throw]
    unfold noType
    decide
  have hklt : k < (N d).ents.length := (List.getElem?_eq_some_iff.mp hk).1
  have hrem : ((N i).type = T_DIR → ∀ m, 2 ≤ m → ∀ e, (N i).ents[m]? = some e → e.inum = 0) → Removable sb N d i k name :=
    fun hempty => ⟨hid, hc.lt hip, hc.lt hdp, hdir, ⟨de, hk, hl, hi⟩, hnz, Int16.not_lt.mp hlinked, hempty⟩
  rw [wp_ite]
  refine ⟨fun ht => ?_, fun ht => ?_⟩
  · rw [wp_bind]
    refine wp_imp (isdirempty_spec ⟨hc, hip, List.mem_cons_self, ht⟩) fun empty s1 h1 => ?_
    obtain ⟨rfl, hempty⟩ := h1
    cases empty with
    | false => exact wp_imp (unlinkEnd_busy hc hne hkept) fun _ _ h2 => .inl h2
    | true => exact wp_imp (unlinkEnd_spec hc hne hdir hoff hklt) fun _ _ h2 => .inr ⟨h2.1, hrem fun _ => hempty rfl, h2.2⟩
  · exact wp_imp (unlinkEnd_spec hc hne hdir hoff hklt) fun _ _ h2 => .inr ⟨h2.1, hrem fun hd => absurd hd ht, h2.2⟩

theorem sysUnlink_spec (h : Ctx sb s L [] N) (hr : Ready sb L N cp c) (path : Option (List UInt8)) :
    wp (sysUnlink sb cp path) (fun r s' => Unlinked sb N L c path s' r) (Astray sb.ninodes N c) s := by
  unfold sysUnlink
  cases hp : argstr path with
  | none => exact .failed h
  | some p =>
  simp only [unlink, wp_bind]
  refine wp_imp h.beginOp fun _ s1 h1 => ?_
  refine wp_mono (nameiparent_spec h1 hr p) (fun r s2 h2 => ?_) fun _ he => he
  rcases h2 with ⟨rfl, h2⟩ | ⟨dp, d, name, rfl, hw, h2⟩
  · simp only [wp_bind, wp_pure]
    exact wp_imp h2.endOp fun _ s3 h3 => .failed h3
  have hmem := Multiset.mem_cons_self (dp, d) L
  have hdir : (N d).type = T_DIR := hw.choose_spec.2.2
  have hdn : d < sb.ninodes := h2.lt hmem
  have hkept := h.kept
  have hfail : ∀ {s' : State}, Ctx sb s' ((dp, d) ::ₘ L) [dp] N →
      wp (do iunlockput sb dp; endOp; return -1 : FsM ℤ) (fun r s' => Unlinked sb N L c path s' r) (Astray sb.ninodes N c) s' := by
    intro s' h'
    simp only [wp_bind, wp_pure]
    refine wp_imp (h'.iunlockput_keep List.not_mem_nil (hkept.not_last hdn)) fun _ s3 h3 => ?_
    exact wp_imp h3.endOp fun _ s4 h4 => .failed h4
  simp only [wp_bind]
  refine wp_mono (h2.ilock hmem List.not_mem_nil) (fun _ s3 h3 => ?_) fun _ he => absurd (hdir.symm.trans he.1) (by decide)
  obtain ⟨-, h3⟩ := h3
  rw [wp_ite]
  refine ⟨fun _ => hfail h3, fun hdots => ?_⟩
  rw [not_or] at hdots
  rw [wp_bind]
  refine wp_mono (dirlookup_spec ⟨h3, hmem, List.mem_cons_self, hdir⟩ (hr.range d hdn hdir) name) (fun r s4 h4 => ?_)
    fun _ he => astray_of_noInodes he
  rcases h4 with ⟨rfl, -, rfl⟩ | ⟨ip, off, k, de, rfl, hoff, hk, hl, h4⟩
  · exact hfail h3
  rw [wp_bind]
  have hip := Multiset.mem_cons_self (ip, de.inum.toNat) ((dp, d) ::ₘ L)
  obtain ⟨hin, hmatch⟩ := lookup_mem hl
  by_cases hne : ip = dp
  · -- an entry of the directory that names the directory itself: `unlink` waits for itself
    subst hne
    refine wp_mono (ilock_hang (h4.valid ip List.mem_cons_self).1 ((h4.lock ip).mpr List.mem_cons_self)) (fun _ _ => False.elim)
      fun e he hno => ?_
    rw [he] at hno
    cases hno
  refine wp_mono (h4.ilock hip (by simpa using hne)) (fun _ s5 h5 => ?_) fun _ he _ hc _ _ => hc d hdn hdir de hin hmatch.1 he.1
  obtain ⟨-, h5⟩ := h5
  have hid : de.inum.toNat ≠ d := fun he => hne (h5.uniq (he ▸ hip) (Multiset.mem_cons_of_mem hmem))
  refine wp_mono (unlinkEntry_spec hkept h5 hne hid hdir hoff hk hl rfl) (fun r s6 h6 => ?_) fun _ he hno => absurd hno he
  rcases h6 with ⟨rfl, h6⟩ | ⟨rfl, hrem, h6⟩
  · exact .failed h6
  · exact .done hp hw hdots hrem h6

end Unlink

end Xv6.Fs
