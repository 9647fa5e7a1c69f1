import Xv6.Sanity.Paths
import Xv6.Spec.FsCalls

/-! What `create` does to the nodes. -/

namespace Xv6.Fs

open Wp

variable {sb : Superblock} {s : State} {L : Multiset (Ip × ℕ)} {K : List Ip} {N : ℕ → Node} {dp ip : Ip} {d i : ℕ}

/-- The entries of a new directory `i` in `d`. -/
def dots (i d : ℕ) : List Dirent := [⟨UInt16.ofNat i, stored dot⟩, ⟨UInt16.ofNat d, stored dotdot⟩]

/-- The node `create` makes. -/
def newNode (type : Int16) (i d gen : ℕ) : Node := ⟨type, 1, if type = T_DIR then dots i d else [], gen + 1⟩

/-- The nodes after inode `i` was made in directory `d`, as its entry `k`. -/
def made (N : ℕ → Node) (d i k : ℕ) (name : List UInt8) (type : Int16) : ℕ → Node :=
  let N' := putEnt (Function.update N i (newNode type i d (N i).gen)) d k ⟨UInt16.ofNat i, stored name⟩
  if type = T_DIR then Function.update N' d { N' d with nlink := (N' d).nlink + 1 } else N'

/-- Entry `k` of directory `d` is free for a new name. -/
structure Spare (N : ℕ → Node) (d k : ℕ) (name : List UInt8) : Prop where
  unnamed : lookup (N d).ents name = none
  entry : k ≤ (N d).ents.length
  empty : ∀ de, (N d).ents[k]? = some de → de.inum = 0

/-- So is inode `i`. -/
structure Vacant (n : ℕ) (N : ℕ → Node) (d i k : ℕ) (name : List UInt8) : Prop extends Spare N d k name where
  pos : 0 < i
  lt : i < n
  free : (N i).type = 0
  dlt : d < n
  dir : (N d).type = T_DIR

theorem Vacant.ne {n k : ℕ} {name : List UInt8} (h : Vacant n N d i k name) : i ≠ d := by
  rintro rfl
  exact absurd (h.free.symm.trans h.dir) (by decide)

/-- An inode was allocated and freed again. -/
def Unmade (N N' : ℕ → Node) : Prop := N' = N ∨ ∃ i, (N i).type = 0 ∧ N' = Function.update N i (Node.free ((N i).gen + 1))

theorem createFail_spec {n : Node} (h : Ctx sb s ((ip, i) ::ₘ (dp, d) ::ₘ L) [ip, dp] (Function.update N i n))
    (hne : ip ≠ dp) (hfresh : ∀ r ∈ (dp, d) ::ₘ L, r.2 ≠ i) (hkeep : ¬ Last N L d) :
    wp (createFail sb ip dp) (fun r s' => r = none ∧ Ctx sb s' L [] (Function.update N i (Node.free n.gen)))
      (fun _ => False) s := by
  have hd : d ≠ i := hfresh (dp, d) (Multiset.mem_cons_self _ _)
  have hmem := Multiset.mem_cons_self (ip, i) ((dp, d) ::ₘ L)
  have htype : n.type ≠ 0 := by simpa only [Function.update_self] using h.locked_type hmem List.mem_cons_self
  simp only [createFail, wp_bind, wp_setD, wp_pure]
  refine wp_imp (h.update hmem List.mem_cons_self (f := fun d => { d with nlink := 0 }) (g := fun _ => 0)
    (fun _ => ⟨rfl, rfl, rfl⟩) fun _ => rfl) fun _ s1 h1 => ?_
  rw [Function.update_self, Function.update_idem] at h1
  have hlast : Last (Function.update N i { n with nlink := 0 }) ((dp, d) ::ₘ L) i := by
    refine ⟨?_, ?_, hfresh⟩
    · rw [Function.update_self]
      exact htype
    · rw [Function.update_self]
  refine wp_imp (h1.iunlockput (by simpa using hne)) fun _ s2 h2 => ?_
  rw [release, if_pos hlast, Function.update_self, Function.update_idem] at h2
  refine wp_imp (h2.iunlockput_keep List.not_mem_nil fun hl => hkeep ?_) fun _ s3 h3 => ⟨trivial, h3⟩
  rw [Last, Function.update_of_ne hd] at hl
  exact hl

section Dots

/-- An entry in a directory whose entries are all in use goes to the end. -/
theorem Linked.last {N' : ℕ → Node} {name : List UInt8} (h : Linked N N' d i name)
    (hfull : ∀ de ∈ (N d).ents, de.inum ≠ 0) :
    N' = Function.update N d { N d with ents := (N d).ents ++ [⟨UInt16.ofNat i, stored name⟩] } := by
  obtain ⟨k, hk, hempty, rfl⟩ := h.put
  have hlen : ¬ k < (N d).ents.length := fun hlt =>
    hfull _ (List.getElem_mem hlt) (hempty _ (List.getElem?_eq_getElem hlt))
  rw [putEnt, setEnt, if_neg hlen]

theorem ofNat_ne_zero {m : ℕ} (hpos : 0 < m) (hlt : m < 2 ^ 16) : UInt16.ofNat m ≠ 0 := fun h => by
  have := congrArg UInt16.toNat h
  rw [UInt16.toNat_ofNat_of_lt' hlt] at this
  exact hpos.ne' this

/-- `.` and `..` in a new directory. -/
theorem linkDots_spec {L0 : Multiset (Ip × ℕ)} {g : ℕ} (h : Ctx sb s L0 K (Function.update N i ⟨T_DIR, 1, [], g⟩))
    (hi : (ip, i) ∈ L0) (hk : ip ∈ K) (hd : (dp, d) ∈ L0) (hkeys : ∀ jp ∈ K, ∃ j, (jp, j) ∈ L0) (hpos : 0 < i) :
    wp (linkDots sb ip dp) (fun r s' => ∃ ents, (r = true → ents = dots i d) ∧
      Ctx sb s' L0 K (Function.update N i ⟨T_DIR, 1, ents, g⟩)) noInodes s := by
  have hin : i < sb.ninodes := h.lt hi
  have hsmall : i < 2 ^ 16 := hin.trans_le h.inv.wf.inums
  have hdir : ∀ ents, (Function.update N i ⟨T_DIR, 1, ents, g⟩ i).type = T_DIR := fun ents => by rw [Function.update_self]
  simp only [linkDots, getInode, wp_bind, wp_get, wp_pure]
  rw [show (s.itable ip).inum = i from h.inum (ip, i) hi]
  refine wp_mono (dirlink_spec ⟨h, hi, hk, hdir []⟩ (fun de hde => ?_) (fun j hj => h.kept.not_last hj) hkeys dot i)
    (fun r s1 h1 => ?_) fun _ he => he
  · rw [Function.update_self] at hde
    exact absurd hde List.not_mem_nil
  rw [wp_ite]
  rcases h1 with ⟨rfl, h1⟩ | ⟨rfl, N1, hlink, h1⟩
  · exact ⟨fun _ => ⟨[], by simp, h1⟩, fun hr => absurd (by decide) hr⟩
  refine ⟨fun hr => absurd hr (by decide), fun _ => ?_⟩
  have hN1 := hlink.last (fun de hde => by
    rw [Function.update_self] at hde
    exact absurd hde List.not_mem_nil)
  rw [Function.update_self, Function.update_idem, List.nil_append] at hN1
  subst hN1
  simp only [wp_bind, wp_get, wp_pure]
  rw [show (s1.itable dp).inum = d from h1.inum (dp, d) hd]
  refine wp_mono (dirlink_spec ⟨h1, hi, hk, hdir _⟩ (fun de hde => ?_) (fun j hj => h1.kept.not_last hj) hkeys dotdot d)
    (fun r s2 h2 => ?_) fun _ he => he
  · rw [Function.update_self, List.mem_singleton] at hde
    rw [hde, UInt16.toNat_ofNat_of_lt' hsmall]
    exact hin
  rcases h2 with ⟨rfl, h2⟩ | ⟨rfl, N2, hlink2, h2⟩
  · exact ⟨_, by simp, h2⟩
  · have hN2 := hlink2.last (fun de hde => by
      rw [Function.update_self, List.mem_singleton] at hde
      rw [hde]
      exact ofNat_ne_zero hpos hsmall)
    rw [Function.update_self, Function.update_idem] at hN2
    subst hN2
    exact ⟨_, fun _ => rfl, h2⟩

end Dots

section New

variable {type major minor : Int16} {name : List UInt8}

/-- The end of `createNew`, once the entries of the new inode are written or could not be. -/
def createEnd (sb : Superblock) (ip dp : Ip) (name : List UInt8) (type : Int16) (ok : Bool) : FsM (Option Ip) :=
  if !ok then createFail sb ip dp
  else do
    let e ← getInode ip
    let r ← dirlink sb dp name e.inum
    if r < 0 then createFail sb ip dp
    else do
      if type = T_DIR then do
        setD dp fun d => { d with nlink := d.nlink + 1 }
        iupdate sb dp
      iunlockput sb dp
      return some ip

theorem createNew_eq : createNew sb ip dp name type major minor = (do
    ilock sb ip
    setD ip fun d => { d with major := major, minor := minor, nlink := 1 }
    iupdate sb ip
    if type = T_DIR then linkDots sb ip dp >>= createEnd sb ip dp name type else createEnd sb ip dp name type true) := rfl

/-- How the making of inode `i` in directory `d` ends. -/
def Making (sb : Superblock) (N : ℕ → Node) (L : Multiset (Ip × ℕ)) (ip : Ip) (i d : ℕ) (name : List UInt8) (type : Int16)
    (r : Option Ip) (s' : State) : Prop :=
  (r = none ∧ ∃ N', Unmade N N' ∧ Ctx sb s' L [] N') ∨
  ∃ k, r = some ip ∧ Vacant sb.ninodes N d i k name ∧
    Ctx sb s' ((ip, i) ::ₘ L) [ip] (release (made N d i k name type) ((ip, i) ::ₘ L) d)

/-- What `create` knows when `ialloc` has given it inode `i` for an entry in `d`. -/
structure Taken (sb : Superblock) (N : ℕ → Node) (L : Multiset (Ip × ℕ)) (ip dp : Ip) (i d : ℕ) : Prop where
  pos : 0 < i
  lt : i < sb.ninodes
  free : (N i).type = 0
  ne : ip ≠ dp
  fresh : ∀ r ∈ (dp, d) ::ₘ L, r.2 ≠ i
  keep : ¬ Last N L d
  dir : (N d).type = T_DIR
  range : ∀ de ∈ (N d).ents, de.inum.toNat < sb.ninodes

theorem Taken.ne_dir (h : Taken sb N L ip dp i d) : d ≠ i := h.fresh (dp, d) (Multiset.mem_cons_self _ _)

theorem Taken.refs (_ : Taken sb N L ip dp i d) : (ip, i) ∈ (ip, i) ::ₘ (dp, d) ::ₘ L ∧ (dp, d) ∈ (ip, i) ::ₘ (dp, d) ::ₘ L ∧
    ∀ jp ∈ [ip, dp], ∃ j, (jp, j) ∈ (ip, i) ::ₘ (dp, d) ::ₘ L := by
  simp only [List.mem_cons, List.not_mem_nil, or_false, forall_eq_or_imp, forall_eq]
  exact ⟨by simp, by simp, ⟨i, by simp⟩, ⟨d, by simp⟩⟩

theorem Taken.fail (h : Taken sb N L ip dp i d) {ents : List Dirent}
    (hc : Ctx sb s ((ip, i) ::ₘ (dp, d) ::ₘ L) [ip, dp] (Function.update N i ⟨type, 1, ents, (N i).gen + 1⟩)) :
    wp (createFail sb ip dp) (Making sb N L ip i d name type) noInodes s :=
  wp_imp (createFail_spec hc h.ne h.fresh h.keep) fun _ _ h' => .inl ⟨h'.1, _, .inr ⟨i, h.free, rfl⟩, h'.2⟩

theorem createEnd_spec (h : Taken sb N L ip dp i d) {ok : Bool} {ents : List Dirent}
    (hents : ok = true → ents = if type = T_DIR then dots i d else [])
    (hc : Ctx sb s ((ip, i) ::ₘ (dp, d) ::ₘ L) [ip, dp] (Function.update N i ⟨type, 1, ents, (N i).gen + 1⟩)) :
    wp (createEnd sb ip dp name type ok) (Making sb N L ip i d name type) noInodes s := by
  obtain ⟨hip, hdp, hkeys⟩ := h.refs
  rw [createEnd, wp_ite]
  refine ⟨fun _ => h.fail hc, fun hok => ?_⟩
  obtain rfl : ents = _ := hents (by simpa using hok)
  simp only [getInode, wp_bind, wp_get, wp_pure]
  rw [show (s.itable ip).inum = i from hc.inum (ip, i) hip]
  have hNd : Function.update N i (newNode type i d (N i).gen) d = N d := Function.update_of_ne h.ne_dir _ _
  have hlocked : LockedDir sb s ((ip, i) ::ₘ (dp, d) ::ₘ L) [ip, dp] (Function.update N i (newNode type i d (N i).gen)) dp d :=
    ⟨hc, hdp, by simp, by rw [hNd]; exact h.dir⟩
  refine wp_mono (dirlink_spec hlocked (by rw [hNd]; exact h.range) (fun j hj => hc.kept.not_last hj) hkeys name i)
    (fun r s1 h1 => ?_) fun _ he => he
  rw [wp_ite]
  rcases h1 with ⟨rfl, h1⟩ | ⟨rfl, N1, hlink, h1⟩
  · exact ⟨fun _ => h.fail h1, fun hr => absurd (by decide) hr⟩
  refine ⟨fun hr => absurd hr (by decide), fun _ => ?_⟩
  obtain ⟨k, hk, hempty, rfl⟩ := hlink.put
  have hunnamed := hlink.fresh
  rw [hNd] at hk hempty hunnamed
  -- the lock of the directory goes last
  have hlast : ∀ {s' : State}, Ctx sb s' ((ip, i) ::ₘ (dp, d) ::ₘ L) [ip, dp] (made N d i k name type) →
      wp (iunlockput sb dp) (fun _ s' => Making sb N L ip i d name type (some ip) s') noInodes s' := by
    intro s' h'
    rw [Multiset.cons_swap] at h'
    have hkeys' : ∀ jp, jp ∈ [ip, dp] ↔ jp ∈ [dp, ip] := fun jp => by simp [or_comm]
    exact wp_imp ((h'.keys hkeys').iunlockput (by simpa using h.ne.symm)) fun _ _ h2 =>
      .inr ⟨k, rfl, ⟨⟨hunnamed, hk, hempty⟩, h.pos, h.lt, h.free, hc.lt hdp, h.dir⟩, h2⟩
  rw [wp_ite]
  refine ⟨fun ht => ?_, fun ht => ?_⟩
  · simp only [wp_bind, wp_setD, wp_pure]
    refine wp_imp (h1.update hdp (by simp) (f := fun d => { d with nlink := d.nlink + 1 }) (g := fun n => n + 1)
      (fun _ => ⟨rfl, rfl, rfl⟩) fun _ => rfl) fun _ s2 h2 => hlast ?_
    rw [made, if_pos ht]
    exact h2
  · simp only [wp_bind, wp_pure]
    refine hlast ?_
    rw [made, if_neg ht]
    exact h1

/-- `create` from the successful `ialloc` on. -/
theorem createNew_spec (h : Taken sb N L ip dp i d)
    (hlock : wp (ilock sb ip) (fun _ s' => Ctx sb s' ((ip, i) ::ₘ (dp, d) ::ₘ L) [ip, dp]
      (Function.update N i ⟨type, 0, [], (N i).gen + 1⟩)) (fun _ => False) s) :
    wp (createNew sb ip dp name type major minor) (Making sb N L ip i d name type) noInodes s := by
  obtain ⟨hip, hdp, hkeys⟩ := h.refs
  rw [createNew_eq, wp_bind]
  refine wp_imp hlock fun _ s1 h1 => ?_
  simp only [wp_bind, wp_setD]
  refine wp_imp (h1.update hip List.mem_cons_self (f := fun d => { d with major := major, minor := minor, nlink := 1 })
    (g := fun _ => 1) (fun _ => ⟨rfl, rfl, rfl⟩) fun _ => rfl) fun _ s2 h2 => ?_
  rw [Function.update_self, Function.update_idem] at h2
  rw [wp_ite]
  refine ⟨fun ht => ?_, fun ht => ?_⟩
  · subst ht
    rw [wp_bind]
    refine wp_mono (linkDots_spec h2 hip List.mem_cons_self hdp hkeys h.pos) (fun ok s3 h3 => ?_) fun _ he => he
    obtain ⟨ents, hents, h3⟩ := h3
    exact createEnd_spec h (by simpa using hents) h3
  · exact createEnd_spec h (fun _ => (if_neg ht).symm) h2

end New

section Create

variable {type major minor : Int16} {cp : Ip} {c : ℕ} {path : List UInt8}

/-- How `create` ends. -/
inductive Created (sb : Superblock) (N : ℕ → Node) (L : Multiset (Ip × ℕ)) (c : ℕ) (path : List UInt8) (type : Int16)
    (s' : State) : Option Ip → Prop
  | failed {N' : ℕ → Node} (hN : Unmade N N') (h : Ctx sb s' L [] N') : Created sb N L c path type s' none
  | found {ip : Ip} {j : ℕ} (hfile : type = T_FILE) (hj : (N j).type = T_FILE ∨ (N j).type = T_DEVICE)
      (hw : walk N (start c path) (elems path) = some j) (h : Ctx sb s' ((ip, j) ::ₘ L) [ip] N) :
      Created sb N L c path type s' (some ip)
  | new {ip : Ip} {i d k : ℕ} {name : List UInt8} (hw : WalkParent N (start c path) (elems path) d name)
      (hv : Vacant sb.ninodes N d i k name)
      (h : Ctx sb s' ((ip, i) ::ₘ L) [ip] (release (made N d i k name type) ((ip, i) ::ₘ L) d)) :
      Created sb N L c path type s' (some ip)

theorem WalkParent.walk_cons {es : List (List UInt8)} {d : ℕ} {name : List UInt8} {de : Dirent} (h : WalkParent N i es d name)
    (hl : lookup (N d).ents name = some de) : walk N i es = some de.inum.toNat := by
  obtain ⟨init, rfl, hw, hd⟩ := h
  rw [walk_append [name] hw, Fs.walk_cons hd hl]
  rfl

theorem astray_of_noInodes {e : Stop} (h : noInodes e) : Astray sb.ninodes N c e :=
  fun hno => absurd hno (not_noType_of_noInodes h)

theorem create_spec (h : Ctx sb s L [] N) (hr : Ready sb L N cp c) (htype : type ≠ 0) (path : List UInt8) :
    wp (create sb cp path type major minor) (fun r s' => Created sb N L c path type s' r) (Astray sb.ninodes N c) s := by
  rw [create, wp_bind]
  refine wp_mono (nameiparent_spec h hr path) (fun r s1 h1 => ?_) fun _ he => he
  rcases h1 with ⟨rfl, h1⟩ | ⟨dp, d, name, rfl, hw, h1⟩
  · exact .failed (.inl rfl) h1
  have hmem := Multiset.mem_cons_self (dp, d) L
  have hdir : (N d).type = T_DIR := hw.choose_spec.2.2
  have hdn : d < sb.ninodes := h1.lt hmem
  have hkept := h.kept
  simp only [wp_bind]
  refine wp_mono (h1.ilock hmem List.not_mem_nil) (fun _ s2 h2 => ?_) fun _ he => absurd (hdir.symm.trans he.1) (by decide)
  obtain ⟨-, h2⟩ := h2
  refine wp_mono (dirlookup_spec ⟨h2, hmem, List.mem_cons_self, hdir⟩ (hr.range d hdn hdir) name) (fun r s3 h3 => ?_)
    fun _ he => astray_of_noInodes he
  rcases h3 with ⟨rfl, -, rfl⟩ | ⟨jp, off, k, de, rfl, -, hk, hl, h3⟩
  · -- no such name: a new inode
    simp only [getInode, wp_bind, wp_get, wp_pure]
    rw [h2.dev hmem]
    have halive : ∀ r ∈ (dp, d) ::ₘ L, (N r.2).type ≠ 0 := by
      intro r hmr
      rcases Multiset.mem_cons.mp hmr with rfl | hmr
      · rw [hdir]
        decide
      · exact hr.alive r hmr
    refine wp_mono (h2.ialloc htype halive) (fun r s4 h4 => ?_) fun _ he => astray_of_noInodes he
    rcases h4 with ⟨rfl, h4⟩ | ⟨ip, i, rfl, hpos, hin, hfree, hipk, hipL, h4⟩
    · simp only [wp_bind, wp_pure]
      exact wp_imp (h4.iunlockput_keep List.not_mem_nil (hkept.not_last hdn)) fun _ s5 h5 => .failed (.inl rfl) h5
    · have htaken : Taken sb N L ip dp i d := by
        refine ⟨hpos, hin, hfree, by simpa using hipk, fun r hmr he => halive r hmr (he ▸ hfree), hkept.not_last hdn, hdir,
          hr.range d hdn hdir⟩
      refine wp_mono (createNew_spec htaken h4) (fun r s5 h5 => ?_) fun _ he => astray_of_noInodes he
      rcases h5 with ⟨rfl, N', hN, h5⟩ | ⟨k, rfl, hv, h5⟩
      · exact .failed hN h5
      · exact .new hw hv h5
  · -- the name is there
    simp only [getInode, wp_bind, wp_get, wp_pure]
    rw [Multiset.cons_swap] at h3
    refine wp_imp (h3.iunlockput_keep List.not_mem_nil ((hkept.mono (Multiset.le_cons_self L _)).not_last hdn))
      fun _ s4 h4 => ?_
    have hjmem := Multiset.mem_cons_self (jp, de.inum.toNat) L
    obtain ⟨hin, hmatch⟩ := lookup_mem hl
    refine wp_mono (h4.ilock hjmem List.not_mem_nil) (fun _ s5 h5 => ?_) fun _ he _ hc _ _ =>
      hc d hdn hdir de hin hmatch.1 he.1
    obtain ⟨-, h5⟩ := h5
    have htj : (s5.itable jp).d.type = (N de.inum.toNat).type := by
      rw [h5.entry hjmem List.mem_cons_self, h5.type (h5.lt hjmem)]
    rw [wp_ite, htj]
    refine ⟨fun hf => .found hf.1 hf.2 (hw.walk_cons hl) h5, fun _ => ?_⟩
    simp only [wp_bind, wp_pure]
    exact wp_imp (h5.iunlockput_keep List.not_mem_nil (hkept.not_last (h5.lt hjmem))) fun _ s6 h6 => .failed (.inl rfl) h6

end Create

end Xv6.Fs
