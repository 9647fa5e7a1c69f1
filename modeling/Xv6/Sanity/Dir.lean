import Xv6.Sanity.Names
import Xv6.Sanity.Refs

/-! Directories: what `dirlookup`, `dirlink` and `isdirempty` find and change, in
terms of the entries of the node. -/

namespace Xv6.Fs

open Bytes Wp

/-- Entry `de` is in use and has the name `name`. -/
def Matches (name : List UInt8) (de : Dirent) : Prop := de.inum ≠ 0 ∧ stored name = stored de.name

instance (name : List UInt8) (de : Dirent) : Decidable (Matches name de) := inferInstanceAs (Decidable (_ ∧ _))

/-- The entry for `name`. -/
def lookup (ents : List Dirent) (name : List UInt8) : Option Dirent := ents.find? fun de => Matches name de

theorem lookup_none {ents : List Dirent} {name : List UInt8} (h : ∀ (k : ℕ) de, ents[k]? = some de → ¬ Matches name de) :
    lookup ents name = none := by
  refine List.find?_eq_none.mpr fun de hde => ?_
  obtain ⟨k, hk⟩ := List.mem_iff_getElem?.mp hde
  simpa using h k de hk

theorem lookup_eq_none_iff {ents : List Dirent} {name : List UInt8} :
    lookup ents name = none ↔ ∀ (k : ℕ) de, ents[k]? = some de → ¬ Matches name de := by
  refine ⟨fun h k de hk => ?_, lookup_none⟩
  have := List.find?_eq_none.mp h de (List.mem_of_getElem? hk)
  simpa using this

theorem lookup_some {ents : List Dirent} {name : List UInt8} {k : ℕ} {de : Dirent} (hk : ents[k]? = some de)
    (hm : Matches name de) (hbefore : ∀ m < k, ∀ e, ents[m]? = some e → ¬ Matches name e) :
    lookup ents name = some de := by
  obtain ⟨hlt, he⟩ := List.getElem?_eq_some_iff.mp hk
  rw [lookup, List.find?_eq_some_iff_getElem]
  refine ⟨by simpa using hm, k, hlt, he, fun m hmk => ?_⟩
  simpa using hbefore m hmk _ (List.getElem?_eq_getElem (by omega))

section Read

variable {sb : Superblock} {s : State} {L : Multiset (Ip × ℕ)} {K : List Ip} {N : ℕ → Node} {dp : Ip} {d : ℕ}

/-- A locked directory. -/
structure LockedDir (sb : Superblock) (s : State) (L : Multiset (Ip × ℕ)) (K : List Ip) (N : ℕ → Node)
    (dp : Ip) (d : ℕ) : Prop where
  ctx : Ctx sb s L K N
  mem : (dp, d) ∈ L
  key : dp ∈ K
  dir : (N d).type = T_DIR

variable (h : LockedDir sb s L K N dp d)

include h

theorem LockedDir.cur_dir : (cur sb s d).type = T_DIR := by
  rw [h.ctx.type (h.ctx.lt h.mem)]
  exact h.dir

theorem LockedDir.ents : (N d).ents = dirents sb s d := by
  rw [← h.ctx.node d (h.ctx.lt h.mem), node_ents_dir h.cur_dir]

/-- The size of a directory is that of its entries. -/
theorem LockedDir.size : (s.itable dp).d.size.toNat = DIRENT * (N d).ents.length := by
  rw [h.ctx.entry h.mem h.key, h.ents, dirents_length]
  exact (Nat.mul_div_cancel' (Nat.dvd_of_mod_eq_zero (h.ctx.inv.whole d (h.ctx.lt h.mem) h.cur_dir))).symm

theorem LockedDir.size_le : DIRENT * (N d).ents.length ≤ MAXFILE * BSIZE := by
  have hdir : T_DIR ≠ 0 := by decide
  rw [← h.size, h.ctx.entry h.mem h.key]
  exact h.ctx.inv.size d (h.ctx.lt h.mem) (by rw [h.cur_dir]; exact hdir)

theorem LockedDir.lt_size_iff {off : UInt32} {k : ℕ} (hoff : off.toNat = DIRENT * k) :
    off < (s.itable dp).d.size ↔ k < (N d).ents.length := by
  rw [UInt32.lt_iff_toNat_lt, h.size, hoff]
  exact Nat.mul_lt_mul_left (by decide)

/-- Reading entry `k`. -/
theorem LockedDir.readi {off : UInt32} {k : ℕ} (hoff : off.toNat = DIRENT * k) (hk : k < (N d).ents.length) :
    wp (readi sb dp .kernel off 16) (fun r s' => r.1 = DIRENT ∧ (N d).ents[k]? = some (Dirent.decode r.2) ∧ s' = s)
      (fun _ => False) s := by
  have hsize := h.size
  have hl := h.ctx.live h.mem h.key
  have hi := h.ctx.lt h.mem
  have hdir : T_DIR ≠ 0 := by decide
  have hle : DIRENT * (k + 1) ≤ DIRENT * (N d).ents.length := Nat.mul_le_mul_left _ hk
  have hent := h.ctx.entry h.mem h.key
  rw [Nat.mul_add, Nat.mul_one] at hle
  refine wp_mono (readi_spec h.ctx.inv.wf h.ctx.inv.tab h.ctx.inv.blk hl ?_ ?_ ?_) (fun r s' hs => ?_) fun _ he => he
  · rw [hoff, hsize]
    exact hle
  · rw [hsize]
    exact h.size_le
  · rw [hent]
    exact h.ctx.inv.dense d hi (by rw [h.cur_dir]; exact hdir)
  · obtain ⟨rfl, rfl⟩ := hs
    refine ⟨rfl, ?_, rfl⟩
    rw [h.ents] at hk ⊢
    rw [dirents_length] at hk
    rw [dirents_getElem?, if_pos hk, hoff]
    rfl

omit h in
/-- The offset of the next entry. -/
theorem off_add {off : UInt32} {k m : ℕ} (hoff : off.toNat = DIRENT * k) (hk : k < m)
    (hm : DIRENT * m ≤ MAXFILE * BSIZE) : (off + 16).toNat = DIRENT * (k + 1) := by
  have hbig : MAXFILE * BSIZE < 2 ^ 32 := by decide
  have hle : DIRENT * (k + 1) ≤ DIRENT * m := Nat.mul_le_mul_left _ hk
  have h16 : (16 : UInt32).toNat = DIRENT := rfl
  rw [UInt32.toNat_add, hoff, h16]
  rw [Nat.mul_add, Nat.mul_one] at hle ⊢
  exact Nat.mod_eq_of_lt (by omega)

/-- The loop of `dirlookup`: the first entry with the name, if there is one, and `iget` of its inode. -/
theorem dirlookupFrom_scan (name : List UInt8) (n : ℕ) {off : UInt32} {k : ℕ} (hoff : off.toNat = DIRENT * k)
    (hn : (N d).ents.length < k + n) (hbefore : ∀ m < k, ∀ e, (N d).ents[m]? = some e → ¬ Matches name e) :
    wp (dirlookupFrom sb dp name n off) (fun r s' => (r = none ∧ lookup (N d).ents name = none ∧ s' = s) ∨
      ∃ ip off' k de, r = some (ip, off') ∧ off'.toNat = DIRENT * k ∧ (N d).ents[k]? = some de ∧
        lookup (N d).ents name = some de ∧ Avail s ip de.inum.toNat ∧ s' = s.got ip de.inum.toNat)
      (fun e => noInodes e ∧ ∀ jp, (s.itable jp).ref ≠ 0) s := by
  induction n generalizing off k with
  | zero =>
    refine Or.inl ⟨rfl, lookup_none fun m de hm => hbefore m ?_ de hm, rfl⟩
    have := (List.getElem?_eq_some_iff.mp hm).1
    omega
  | succ n ih =>
    simp only [dirlookupFrom, getInode, wp_bind, wp_get, wp_pure]
    rw [wp_ite, h.lt_size_iff hoff]
    refine ⟨fun hk => ?_, fun hk => ?_⟩
    · rw [wp_bind]
      refine wp_imp (h.readi hoff hk) fun r s1 h1 => ?_
      obtain ⟨hr, hde, rfl⟩ := h1
      have hnext : ∀ (hno : ¬ Matches name (Dirent.decode r.2)), ∀ m < k + 1, ∀ e,
          (N d).ents[m]? = some e → ¬ Matches name e := fun hno m hm e he => by
        rcases Nat.lt_succ_iff_lt_or_eq.mp hm with hm | rfl
        · exact hbefore m hm e he
        · rw [hde] at he
          exact Option.some.inj he ▸ hno
      have hadd := off_add hoff hk h.size_le
      simp only [hr, ne_eq, not_true_eq_false, if_false]
      rw [wp_ite]
      refine ⟨fun hz => ih hadd (by omega) (hnext fun hm => hm.1 hz), fun hnz => ?_⟩
      rw [wp_ite]
      refine ⟨fun hcmp => ?_, fun hcmp => ih hadd (by omega) (hnext fun hm => hcmp ?_)⟩
      · have hm : Matches name (Dirent.decode r.2) := ⟨hnz, (namecmp_eq_zero_iff _ _).mp hcmp⟩
        rw [wp_bind, h.ctx.dev h.mem]
        refine wp_mono (wp_and (iget_spec h.ctx.inv.tab _) iget_full) (fun ip s2 h2 => ?_) fun _ he => he
        exact Or.inr ⟨ip, off, k, _, rfl, hoff, hde, lookup_some hde hm hbefore, h2.1⟩
      · exact (namecmp_eq_zero_iff _ _).mpr hm.2
    · refine Or.inl ⟨rfl, lookup_none fun m de hm => hbefore m ?_ de hm, rfl⟩
      have := (List.getElem?_eq_some_iff.mp hm).1
      omega

theorem dirlookup_scan (name : List UInt8) :
    wp (dirlookup sb dp name) (fun r s' => (r = none ∧ lookup (N d).ents name = none ∧ s' = s) ∨
      ∃ ip off k de, r = some (ip, off) ∧ off.toNat = DIRENT * k ∧ (N d).ents[k]? = some de ∧
        lookup (N d).ents name = some de ∧ Avail s ip de.inum.toNat ∧ s' = s.got ip de.inum.toNat)
      (fun e => noInodes e ∧ ∀ jp, (s.itable jp).ref ≠ 0) s := by
  have htype : ¬ (s.itable dp).d.type ≠ T_DIR := by
    rw [h.ctx.entry h.mem h.key, not_not]
    exact h.cur_dir
  simp only [dirlookup, getInode, wp_bind, wp_get, wp_pure, if_neg htype]
  refine dirlookupFrom_scan h name _ (by rfl) ?_ fun m hm => absurd hm (Nat.not_lt_zero m)
  rw [h.size, Nat.mul_div_cancel_left _ (by decide)]
  omega

theorem dirlookup_spec (hrange : ∀ de ∈ (N d).ents, de.inum.toNat < sb.ninodes) (name : List UInt8) :
    wp (dirlookup sb dp name) (fun r s' => (r = none ∧ lookup (N d).ents name = none ∧ s' = s) ∨
      ∃ ip off k de, r = some (ip, off) ∧ off.toNat = DIRENT * k ∧ (N d).ents[k]? = some de ∧
        lookup (N d).ents name = some de ∧ Ctx sb s' ((ip, de.inum.toNat) ::ₘ L) K N) noInodes s := by
  refine wp_mono (dirlookup_scan h name) (fun r s' hr => ?_) fun _ he => he.1
  rcases hr with hr | ⟨ip, off, k, de, hr, hoff, hde, hlook, ha, rfl⟩
  · exact .inl hr
  · exact .inr ⟨ip, off, k, de, hr, hoff, hde, hlook, h.ctx.got ha (hrange _ (List.mem_of_getElem? hde))⟩

/-- The loop of `dirlink`: the first empty entry, or the end. -/
theorem emptyFrom_spec (n : ℕ) {off : UInt32} {k : ℕ} (hoff : off.toNat = DIRENT * k) (hk : k ≤ (N d).ents.length)
    (hn : (N d).ents.length < k + n) (hbefore : ∀ m < k, ∀ de, (N d).ents[m]? = some de → de.inum ≠ 0) :
    wp (emptyFrom sb dp n off) (fun r s' => s' = s ∧ ∃ k, r.toNat = DIRENT * k ∧ k ≤ (N d).ents.length ∧
      (∀ de, (N d).ents[k]? = some de → de.inum = 0) ∧ ∀ m < k, ∀ de, (N d).ents[m]? = some de → de.inum ≠ 0)
      (fun _ => False) s := by
  induction n generalizing off k with
  | zero => omega
  | succ n ih =>
    simp only [emptyFrom, getInode, wp_bind, wp_get, wp_pure]
    rw [wp_ite, h.lt_size_iff hoff]
    refine ⟨fun hlt => ?_, fun hend => ?_⟩
    · rw [wp_bind]
      refine wp_imp (h.readi hoff hlt) fun r s1 h1 => ?_
      obtain ⟨hr, hde, rfl⟩ := h1
      simp only [hr, ne_eq, not_true_eq_false, if_false]
      rw [wp_ite]
      refine ⟨fun hz => ?_, fun hnz => ih (off_add hoff hlt h.size_le) hlt (by omega) fun m hm de hde' => ?_⟩
      · refine ⟨rfl, k, hoff, hk, fun de hk' => ?_, hbefore⟩
        rw [hde] at hk'
        exact Option.some.inj hk' ▸ hz
      · rcases Nat.lt_succ_iff_lt_or_eq.mp hm with hm | rfl
        · exact hbefore m hm de hde'
        · rw [hde] at hde'
          exact Option.some.inj hde' ▸ hnz
    · refine ⟨rfl, k, hoff, hk, fun de hk' => ?_, hbefore⟩
      exact absurd (List.getElem?_eq_some_iff.mp hk').1 hend

/-- The loop of `isdirempty`. -/
theorem isdiremptyFrom_spec (n : ℕ) {off : UInt32} {k : ℕ} (hoff : off.toNat = DIRENT * k) (hk : 2 ≤ k)
    (hn : (N d).ents.length < k + n) (hbefore : ∀ m < k, 2 ≤ m → ∀ e, (N d).ents[m]? = some e → e.inum = 0) :
    wp (isdiremptyFrom sb dp n off) (fun r s' => s' = s ∧
      (r = true → ∀ m, 2 ≤ m → ∀ e, (N d).ents[m]? = some e → e.inum = 0)) (fun _ => False) s := by
  have hall : (N d).ents.length ≤ k → ∀ m, 2 ≤ m → ∀ e, (N d).ents[m]? = some e → e.inum = 0 := by
    intro hle m hm e he
    have := (List.getElem?_eq_some_iff.mp he).1
    exact hbefore m (by omega) hm e he
  induction n generalizing off k with
  | zero => exact ⟨rfl, fun _ => hall (by omega)⟩
  | succ n ih =>
    simp only [isdiremptyFrom, getInode, wp_bind, wp_get, wp_pure]
    rw [wp_ite, h.lt_size_iff hoff]
    refine ⟨fun hlt => ?_, fun hend => ⟨rfl, fun _ => hall (by omega)⟩⟩
    rw [wp_bind]
    refine wp_imp (h.readi hoff hlt) fun r s1 h1 => ?_
    obtain ⟨hr, hde, rfl⟩ := h1
    simp only [hr, ne_eq, not_true_eq_false, if_false]
    rw [wp_ite]
    refine ⟨fun _ => ⟨rfl, fun hf => absurd hf (by decide)⟩, fun hz => ?_⟩
    have hnext : ∀ m < k + 1, 2 ≤ m → ∀ e, (N d).ents[m]? = some e → e.inum = 0 := fun m hm hm2 e he => by
      rcases Nat.lt_succ_iff_lt_or_eq.mp hm with hm | rfl
      · exact hbefore m hm hm2 e he
      · rw [hde] at he
        exact Option.some.inj he ▸ not_not.mp hz
    refine ih (off_add hoff hlt h.size_le) (by omega) (by omega) hnext fun hle m hm e he => ?_
    have := (List.getElem?_eq_some_iff.mp he).1
    exact hnext m (by omega) hm e he

theorem isdirempty_spec : wp (isdirempty sb dp) (fun r s' => s' = s ∧
    (r = true → ∀ m, 2 ≤ m → ∀ e, (N d).ents[m]? = some e → e.inum = 0)) (fun _ => False) s := by
  simp only [isdirempty, getInode, wp_bind, wp_get, wp_pure]
  refine isdiremptyFrom_spec h _ (by rfl) le_rfl ?_ fun m hm hm2 => by omega
  rw [h.size, Nat.mul_div_cancel_left _ (by decide)]
  omega

end Read

section Write

variable {sb : Superblock} {s : State} {L : Multiset (Ip × ℕ)} {K : List Ip} {N : ℕ → Node} {dp : Ip} {d : ℕ}

/-- Directory `d` with entry `k` set. -/
def putEnt (N : ℕ → Node) (d k : ℕ) (de : Dirent) : ℕ → Node :=
  Function.update N d { N d with ents := setEnt (N d).ents k de }

/-- Writing entry `k` of a directory: all of it or nothing, and all of it if the entry was there before. -/
theorem LockedDir.writei (h : LockedDir sb s L K N dp d) {off : UInt32} {k : ℕ} {bs : List UInt8}
    (hoff : off.toNat = DIRENT * k) (hk : k ≤ (N d).ents.length) (hbs : bs.length = DIRENT) :
    wp (writei sb dp (.kernel bs) off 16) (fun r s' =>
      (r ≠ DIRENT ∧ (N d).ents.length ≤ k ∧ Ctx sb s' L K N) ∨
      (r = DIRENT ∧ Ctx sb s' L K (putEnt N d k (Dirent.decode bs)))) (fun _ => False) s := by
  have hl := h.ctx.live h.mem h.key
  have hi := h.ctx.lt h.mem
  have hinv := h.ctx.inv
  have hpos : (0 : ℤ) ≠ (DIRENT : ℕ) := by decide
  have hdir := h.cur_dir
  have hnz : (cur sb s d).type ≠ 0 := h.ctx.inv.tab.cur_type hl
  have h16 : (16 : UInt32).toNat = DIRENT := rfl
  have hk' : k ≤ (dirents sb s d).length := by rwa [← h.ents]
  have hlt : k < (N d).ents.length → DIRENT * k + DIRENT ≤ (cur sb s d).size.toNat := fun hlt => by
    have hle := Nat.mul_le_mul_left DIRENT (Nat.succ_le_of_lt hlt)
    rw [← h.size, h.ctx.entry h.mem h.key, Nat.mul_succ] at hle
    exact hle
  refine wp_mono (writei_spec hinv.wf hinv.tab hinv.blk hl (.kernel bs) off 16) (fun r s' hs => ?_) fun _ he => he
  rw [h16, hoff, h.ctx.entry h.mem h.key, UInt32.le_iff_toNat_le, hoff] at hs
  rcases hs with ⟨hbad, rfl, rfl⟩ | ⟨hle, hmax, tot, rfl, hw⟩
  · refine Or.inl ⟨by decide, not_lt.mp fun hkl => hbad ⟨entry_off hk' (hinv.whole d hi hdir), ?_⟩, h.ctx⟩
    exact (hlt hkl).trans (hinv.size d hi hnz)
  · have hmod : DIRENT * k % BSIZE + DIRENT ≤ BSIZE := by
      change 16 * k % 1024 + 16 ≤ 1024
      omega
    obtain ⟨a, ha⟩ := hw.entry
    have hother : ∀ j < sb.ninodes, j ≠ d → node sb s' j = node sb s j := fun j hj hji =>
      hw.node_ne hinv hl hinv.size hj hji
    have hwhole : ∀ m, tot = DIRENT * m → (DIRENT * k + tot) % DIRENT = 0 := fun m hm => by
      rw [hm, ← Nat.mul_add]
      exact Nat.mul_mod_right _ _
    rcases hw.single trivial hmod with htot | htot
    · refine Or.inl ⟨by rw [htot]; exact hpos, not_lt.mp fun hkl => ?_, ?_⟩
      · have := hw.all trivial fun o _ ho => hinv.dense d hi hnz o (lt_of_lt_of_le ho (hlt hkl))
        rw [htot] at this
        exact absurd this (by decide)
      · have hc := h.ctx.contents h.mem h.key (hinv.wrote hl hw hle hmax fun _ => hwhole 0 htot) hw.table
          ⟨_, ha⟩ (hw.node_none hinv hl hdir hk' hmax htot) hother
        rwa [h.ctx.node d hi, Function.update_eq_self] at hc
    · refine Or.inr ⟨by rw [htot], ?_⟩
      have hc := h.ctx.contents h.mem h.key (hinv.wrote hl hw hle hmax fun _ => hwhole 1 (by rw [htot, Nat.mul_one]))
        hw.table ⟨_, ha⟩ (hw.node_entry hinv hl hdir hk' hmax htot hbs) hother
      rwa [h.ctx.node d hi] at hc

theorem dirent_length {inum : ℕ} {name : List UInt8} :
    (Dirent.encode ⟨UInt16.ofNat inum, strncpy DIRSIZ name⟩).length = DIRENT := by
  rw [Dirent.encode, List.length_append, le16_length, strncpy_length]
  rfl

theorem dirent_decode (de : Dirent) : Dirent.decode de.encode = de := by
  rw [Dirent.encode, Dirent.decode, List.take_left' (le16_length _), List.drop_left' (le16_length _), de16_le16]

/-- What `dirlink` does to the nodes: a new entry for `name`, in an empty slot or at the end. -/
structure Linked (N N' : ℕ → Node) (d i : ℕ) (name : List UInt8) : Prop where
  fresh : lookup (N d).ents name = none
  put : ∃ k, k ≤ (N d).ents.length ∧ (∀ de, (N d).ents[k]? = some de → de.inum = 0) ∧
    N' = putEnt N d k ⟨UInt16.ofNat i, stored name⟩

/-- `dirlink`. The entry found, if there is one, may be any inode, also the directory itself. -/
theorem dirlink_spec (h : LockedDir sb s L K N dp d) (hrange : ∀ de ∈ (N d).ents, de.inum.toNat < sb.ninodes)
    (hkeep : ∀ i < sb.ninodes, ¬ Last N L i) (hkeys : ∀ jp ∈ K, ∃ j, (jp, j) ∈ L) (name : List UInt8) (i : ℕ) :
    wp (dirlink sb dp name i) (fun r s' => (r = -1 ∧ Ctx sb s' L K N) ∨
      (r = 0 ∧ ∃ N', Linked N N' d i name ∧ Ctx sb s' L K N')) noInodes s := by
  rw [dirlink, wp_bind]
  refine wp_mono (dirlookup_spec h hrange name) (fun r s1 h1 => ?_) fun _ he => he
  rcases h1 with ⟨rfl, hnone, rfl⟩ | ⟨ip, off, k, de, rfl, -, hde, -, h1⟩
  · simp only [getInode, wp_bind, wp_get, wp_pure]
    refine wp_imp (emptyFrom_spec h _ (by rfl) (Nat.zero_le _) ?_ fun m hm => absurd hm (Nat.not_lt_zero m)) fun off s2 h2 => ?_
    · rw [h.size, Nat.mul_div_cancel_left _ (by decide)]
      omega
    · obtain ⟨rfl, k, hoff, hk, hempty, -⟩ := h2
      refine wp_imp (h.writei hoff hk dirent_length) fun r s3 h3 => ?_
      rw [wp_ite]
      rcases h3 with ⟨hr, -, h3⟩ | ⟨hr, h3⟩
      · exact ⟨fun _ => Or.inl ⟨rfl, h3⟩, fun hno => absurd hr hno⟩
      · refine ⟨fun hno => absurd hr hno, fun _ => Or.inr ⟨rfl, _, ⟨hnone, k, hk, hempty, rfl⟩, ?_⟩⟩
        rwa [dirent_decode] at h3
  · simp only [wp_bind, wp_pure]
    have hlt := hrange _ (List.mem_of_getElem? hde)
    refine wp_imp (h1.iput_keep (fun hK => ?_) (hkeep _ hlt)) fun _ s2 h2 => Or.inl ⟨trivial, h2⟩
    obtain ⟨j, hj⟩ := hkeys ip hK
    rwa [h1.uniq_inum (Multiset.mem_cons_of_mem hj) (Multiset.mem_cons_self _ _)] at hj

end Write

end Xv6.Fs
