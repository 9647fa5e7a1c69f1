import Xv6.Sanity.Dir

/-! Path resolution: `namex` walks the entries of the nodes, and leaves them as they are. -/

namespace Xv6.Fs

open Wp

/-- The inode reached from `i` through the names `es`. -/
def walk (N : ℕ → Node) : ℕ → List (List UInt8) → Option ℕ
  | i, [] => some i
  | i, x :: es =>
    if (N i).type = T_DIR then
      match lookup (N i).ents x with
      | some de => walk N de.inum.toNat es
      | none => none
    else none

/-- The directory reached through all names of the path but the last, and that name. -/
def WalkParent (N : ℕ → Node) (i : ℕ) (es : List (List UInt8)) (d : ℕ) (name : List UInt8) : Prop :=
  ∃ init, es = init ++ [name] ∧ walk N i init = some d ∧ (N d).type = T_DIR

/-- Entries name inodes that exist. -/
def InRange (n : ℕ) (N : ℕ → Node) : Prop :=
  ∀ i < n, (N i).type = T_DIR → ∀ de ∈ (N i).ents, de.inum.toNat < n

/-- Entries name allocated inodes. -/
def Closed (n : ℕ) (N : ℕ → Node) : Prop :=
  ∀ i < n, (N i).type = T_DIR → ∀ de ∈ (N i).ents, de.inum ≠ 0 → (N de.inum.toNat).type ≠ 0

/-- An allocated inode without links is one of those `L` refers to. -/
def Kept (n : ℕ) (N : ℕ → Node) (L : Multiset (Ip × ℕ)) : Prop :=
  ∀ i < n, (N i).type ≠ 0 → (N i).nlink = 0 → ∃ r ∈ L, r.2 = i

/-- How path resolution from `i` may stop: it does not run into a free inode if `i` is allocated and no entry names
a free one. -/
def Stray (n : ℕ) (N : ℕ → Node) (i : ℕ) (e : Stop) : Prop := noType e → Closed n N → (N i).type ≠ 0 → False

/-- The same for a call of a process with working directory `c`. -/
def Astray (n : ℕ) (N : ℕ → Node) (c : ℕ) (e : Stop) : Prop :=
  noType e → Closed n N → (N ROOTINO).type ≠ 0 → (N c).type ≠ 0 → False

section Walk

variable {n : ℕ} {N N' : ℕ → Node} {L L' : Multiset (Ip × ℕ)} {i j : ℕ} {x : List UInt8} {es : List (List UInt8)} {de : Dirent}

theorem walk_cons (hd : (N i).type = T_DIR) (hl : lookup (N i).ents x = some de) :
    walk N i (x :: es) = walk N de.inum.toNat es := by
  rw [walk, if_pos hd, hl]

theorem lookup_mem {ents : List Dirent} (h : lookup ents x = some de) : de ∈ ents ∧ Matches x de := by
  have := List.find?_some h
  exact ⟨List.mem_of_find?_eq_some h, by simpa using this⟩

/-- A step of a walk. -/
theorem walk_cons_some (h : walk N i (x :: es) = some j) :
    ∃ de, (N i).type = T_DIR ∧ lookup (N i).ents x = some de ∧ walk N de.inum.toNat es = some j := by
  rw [walk] at h
  split_ifs at h with hd
  cases hl : lookup (N i).ents x with
  | none => rw [hl] at h; cases h
  | some de => rw [hl] at h; exact ⟨de, hd, rfl, h⟩

/-- What holds at the start of a walk and is handed on by every entry in use holds at its end. -/
theorem walk_inv {P : ℕ → Prop} (hstep : ∀ i, P i → (N i).type = T_DIR → ∀ de ∈ (N i).ents, de.inum ≠ 0 → P de.inum.toNat)
    (hi : P i) (h : walk N i es = some j) : P j := by
  induction es generalizing i with
  | nil => exact Option.some.inj h ▸ hi
  | cons x es ih =>
    obtain ⟨de, hd, hl, hw⟩ := walk_cons_some h
    obtain ⟨hmem, hm⟩ := lookup_mem hl
    exact ih (hstep i hi hd de hmem hm.1) hw

theorem walk_cons_eq (x : List UInt8) (es : List (List UInt8)) : walk N i (x :: es) = if (N i).type = T_DIR then
    (lookup (N i).ents x).bind (fun de => walk N de.inum.toNat es) else none := by
  rw [walk]
  cases lookup (N i).ents x <;> rfl

theorem walk_append_eq (es fs : List (List UInt8)) : walk N i (es ++ fs) = (walk N i es).bind fun j => walk N j fs := by
  induction es generalizing i with
  | nil => rfl
  | cons x es ih =>
    rw [List.cons_append, walk_cons_eq, walk_cons_eq]
    split_ifs with hd
    · rw [Option.bind_assoc]
      exact Option.bind_congr fun de _ => ih
    · rfl

theorem walk_append (es' : List (List UInt8)) (h : walk N i es = some j) : walk N i (es ++ es') = walk N j es' := by
  rw [walk_append_eq, h, Option.bind_some]

theorem Kept.mono (h : Kept n N L) (hle : L ≤ L') : Kept n N L' := fun i hi ht hn => by
  obtain ⟨r, hr, he⟩ := h i hi ht hn
  exact ⟨r, Multiset.mem_of_le hle hr, he⟩

theorem Kept.not_last (h : Kept n N L) (hi : i < n) : ¬ Last N L i := fun hl => by
  obtain ⟨r, hr, he⟩ := h i hi hl.1 hl.2.1
  exact hl.2.2 r hr he

theorem Ctx.kept {sb : Superblock} {s : State} {K : List Ip} (h : Ctx sb s L K N) : Kept sb.ninodes N L :=
  fun i hi ht hn => by
    obtain ⟨r, hr, he, -⟩ := h.held i hi ht hn
    exact ⟨r, hr, he⟩

theorem not_noType_of_noInodes {e : Stop} (h : noInodes e) : ¬ noType e := fun ht => by
  unfold noType at ht
  rw [noInodes, ht] at h
  exact absurd h (by decide)

end Walk

section Namex

variable {sb : Superblock} {L : Multiset (Ip × ℕ)} {N : ℕ → Node}

/-- Where `namex` ends. -/
def Resolved (N : ℕ → Node) (parent : Bool) (i : ℕ) (es : List (List UInt8)) (j : ℕ) (name : List UInt8) : Prop :=
  if parent then WalkParent N i es j name else walk N i es = some j

theorem Resolved.cons {parent : Bool} {i j : ℕ} {x name : List UInt8} {es : List (List UInt8)} {de : Dirent}
    (hd : (N i).type = T_DIR) (hl : lookup (N i).ents x = some de)
    (h : Resolved N parent de.inum.toNat es j name) : Resolved N parent i (x :: es) j name := by
  cases parent with
  | false => exact (walk_cons hd hl).trans h
  | true =>
    obtain ⟨init, rfl, hw, hj⟩ := h
    exact ⟨x :: init, rfl, (walk_cons hd hl).trans hw, hj⟩

theorem Resolved.uncons {parent : Bool} {i j : ℕ} {x name : List UInt8} {es : List (List UInt8)}
    (hes : parent = true → es ≠ []) (h : Resolved N parent i (x :: es) j name) :
    ∃ de, (N i).type = T_DIR ∧ lookup (N i).ents x = some de ∧ Resolved N parent de.inum.toNat es j name := by
  cases parent with
  | false => exact walk_cons_some h
  | true =>
    obtain ⟨init, hsplit, hw, hj⟩ := h
    cases init with
    | nil =>
      obtain ⟨-, rfl⟩ := List.cons.inj hsplit
      exact absurd rfl (hes rfl)
    | cons y init =>
      obtain ⟨rfl, rfl⟩ := List.cons.inj hsplit
      obtain ⟨de, hd, hl, hw⟩ := walk_cons_some hw
      exact ⟨de, hd, hl, init, rfl, hw, hj⟩

theorem Resolved.dir {parent : Bool} {i j : ℕ} {x name : List UInt8} {es : List (List UInt8)}
    (h : Resolved N parent i (x :: es) j name) : (N i).type = T_DIR := by
  cases parent with
  | false =>
    obtain ⟨-, hd, -⟩ := walk_cons_some h
    exact hd
  | true =>
    obtain ⟨init, hsplit, hw, hj⟩ := h
    cases init with
    | nil =>
      cases hw
      exact hj
    | cons y init =>
      obtain ⟨rfl, rfl⟩ := List.cons.inj hsplit
      obtain ⟨-, hd, -⟩ := walk_cons_some hw
      exact hd

/-- How path resolution from `i` stops: there is no entry of the inode table for the next inode, or it comes to a free
inode. -/
def Lost (n : ℕ) (N : ℕ → Node) (L : Multiset (Ip × ℕ)) (i : ℕ) (e : Stop) : Prop :=
  (noInodes e ∧ NINODE ≤ (L.map Prod.fst).toFinset.card + 1) ∨ (noType e ∧ (Closed n N → (N i).type ≠ 0 → False))

theorem Ctx.crowded {s : State} {K : List Ip} (h : Ctx sb s L K N) (hfull : ∀ jp, (s.itable jp).ref ≠ 0) :
    NINODE ≤ (L.map Prod.fst).toFinset.card := by
  have huniv : (L.map Prod.fst).toFinset = Finset.univ := by
    refine Finset.eq_univ_of_forall fun jp => ?_
    rw [Multiset.mem_toFinset, ← Multiset.count_pos, ← h.ref]
    exact Nat.pos_of_ne_zero (hfull jp)
  rw [huniv, Finset.card_univ, Fintype.card_fin]

/-- The loop of `namex`, with a reference to `i` in hand: it finds what the walk finds, and nothing if that finds nothing. -/
theorem namexFrom_exact (hrange : InRange sb.ninodes N) (hkept : Kept sb.ninodes N L) (parent : Bool) (m : ℕ) {s : State}
    {ip : Ip} {i : ℕ} {path name : List UInt8} (h : Ctx sb s ((ip, i) ::ₘ L) [] N) (hm : path.length < m) :
    wp (namexFrom sb parent m ip path name) (fun r s' =>
      (r = none ∧ (∀ j last, ¬ Resolved N parent i (elemsFrom m path) j last) ∧ Ctx sb s' L [] N) ∨
      ∃ jp j last, r = some (jp, last) ∧ Resolved N parent i (elemsFrom m path) j last ∧ Ctx sb s' ((jp, j) ::ₘ L) [] N)
      (Lost sb.ninodes N L i) s := by
  have hmem : ∀ {ip : Ip} {i : ℕ}, (ip, i) ∈ (ip, i) ::ₘ L := Multiset.mem_cons_self _ _
  induction m generalizing ip i path name s with
  | zero => omega
  | succ m ih =>
    rw [namexFrom]
    cases hs : skipelem path with
    | none =>
      rw [wp_ite, elemsFrom_none hs]
      refine ⟨fun hp => ?_, fun hp => ?_⟩
      · rw [wp_bind]
        refine wp_imp (h.iput_keep (fun hk => absurd hk List.not_mem_nil) (hkept.not_last (h.lt hmem)))
          fun _ s1 h1 => Or.inl ⟨rfl, fun j last hres => ?_, h1⟩
        rw [Resolved, if_pos hp] at hres
        obtain ⟨init, hsplit, -⟩ := hres
        simp at hsplit
      · refine Or.inr ⟨ip, i, name, rfl, ?_, h⟩
        rw [Resolved, if_neg hp]
        rfl
    | some r =>
      obtain ⟨x, rest⟩ := r
      rw [elemsFrom_some hs]
      simp only [getInode, wp_bind, wp_get, wp_pure]
      refine wp_mono (h.ilock hmem List.not_mem_nil) (fun _ s1 h1 => ?_) fun e he => .inr ⟨he.2, fun _ hi => hi he.1⟩
      obtain ⟨-, h1⟩ := h1
      have hlt := h1.lt hmem
      have htype : (s1.itable ip).d.type = (N i).type := by
        rw [h1.entry hmem List.mem_cons_self, h1.type hlt]
      have hnl := hkept.not_last hlt
      rw [wp_ite, htype]
      refine ⟨fun hno => ?_, fun hd => ?_⟩
      · rw [wp_bind]
        exact wp_imp (h1.iunlockput_keep List.not_mem_nil hnl) fun _ s2 h2 => Or.inl ⟨rfl, fun j last hres => hno hres.dir, h2⟩
      have hd := not_not.mp hd
      rw [wp_ite]
      refine ⟨fun hp => ?_, fun hp => ?_⟩
      · rw [wp_bind]
        refine wp_imp (h1.iunlock hmem List.not_mem_nil) fun _ s2 h2 => Or.inr ⟨ip, i, x, rfl, ?_, h2⟩
        rw [hp.2, elemsFrom_none skipelem_nil, Resolved, if_pos hp.1]
        exact ⟨[], rfl, rfl, hd⟩
      · have hlen := skipelem_length hs
        have hmore : parent = true → elemsFrom m rest ≠ [] := fun hpar => by
          obtain ⟨m, rfl⟩ : ∃ m', m = m' + 1 := Nat.exists_eq_succ_of_ne_zero (by omega)
          exact elemsFrom_rest hs fun hnil => hp ⟨hpar, hnil⟩
        have hlocked : LockedDir sb s1 ((ip, i) ::ₘ L) [ip] N ip i := ⟨h1, hmem, List.mem_cons_self, hd⟩
        rw [wp_bind]
        refine wp_mono (dirlookup_scan hlocked x) (fun r s2 h2 => ?_) fun e he => .inl ⟨he.1, ?_⟩
        · rcases h2 with ⟨rfl, hnone, rfl⟩ | ⟨jp, off, k, de, rfl, -, hk, hl, ha, rfl⟩
          · rw [wp_bind]
            refine wp_imp (h1.iunlockput_keep List.not_mem_nil hnl) fun _ s2 h2 => Or.inl ⟨rfl, fun j last hres => ?_, h2⟩
            obtain ⟨de, -, hl, -⟩ := hres.uncons hmore
            rw [hnone] at hl
            cases hl
          · have h2 := h1.got ha (hrange i hlt hd de (List.mem_of_getElem? hk))
            simp only [wp_bind]
            rw [Multiset.cons_swap] at h2
            have hkeep := (hkept.mono (Multiset.le_cons_self L (jp, de.inum.toNat))).not_last hlt
            refine wp_imp (h2.iunlockput_keep List.not_mem_nil hkeep) fun _ s3 h3 => ?_
            obtain ⟨hin, hmatch⟩ := lookup_mem hl
            refine wp_mono (ih h3 (by omega)) (fun r s4 h4 => ?_) fun e he => he.imp_right fun ht => ?_
            · rcases h4 with ⟨rfl, hno, h4⟩ | ⟨kp, j, last, rfl, hres, h4⟩
              · refine Or.inl ⟨rfl, fun j last hres => ?_, h4⟩
                obtain ⟨de', -, hl', hres⟩ := hres.uncons hmore
                rw [hl] at hl'
                cases hl'
                exact hno j last hres
              · exact Or.inr ⟨kp, j, last, rfl, hres.cons hd hl, h4⟩
            · exact ⟨ht.1, fun hc _ => ht.2 hc (hc i hlt hd de hin hmatch.1)⟩
        · have hcrowd := h1.crowded he.2
          rw [Multiset.map_cons, Multiset.toFinset_cons] at hcrowd
          exact hcrowd.trans (Finset.card_insert_le _ _)

theorem Lost.stray {n i : ℕ} {e : Stop} (h : Lost n N L i e) : Stray n N i e := fun hno =>
  (h.resolve_left fun hfull => not_noType_of_noInodes hfull.1 hno).2

/-- Where the path of a call starts. -/
def start (cwd : ℕ) (path : List UInt8) : ℕ := if path.head? = some slash then ROOTINO else cwd

variable {s : State} {cp : Ip} {c : ℕ}

/-- What a call needs to resolve paths. -/
structure Ready (sb : Superblock) (L : Multiset (Ip × ℕ)) (N : ℕ → Node) (cp : Ip) (c : ℕ) : Prop where
  range : InRange sb.ninodes N
  alive : ∀ r ∈ L, (N r.2).type ≠ 0
  cwd : (cp, c) ∈ L
  root : ROOTINO < sb.ninodes

theorem Stray.astray {e : Stop} {path : List UInt8} (h : Stray sb.ninodes N (start c path) e) : Astray sb.ninodes N c e := by
  intro hno hc hroot hcwd
  refine h hno hc ?_
  unfold start
  split_ifs
  · exact hroot
  · exact hcwd

/-- A path leads to an allocated inode. -/
theorem Ready.walk_type (hr : Ready sb L N cp c) (h : Ctx sb s L [] N) (hc : Closed sb.ninodes N)
    (hroot : (N ROOTINO).type ≠ 0) {path : List UInt8} {es : List (List UInt8)} {j : ℕ}
    (hw : walk N (start c path) es = some j) : (N j).type ≠ 0 := by
  have hstart : start c path < sb.ninodes ∧ (N (start c path)).type ≠ 0 := by
    unfold start
    split_ifs
    · exact ⟨hr.root, hroot⟩
    · exact ⟨h.lt hr.cwd, hr.alive _ hr.cwd⟩
  have hinv : j < sb.ninodes ∧ (N j).type ≠ 0 := walk_inv (P := fun k => k < sb.ninodes ∧ (N k).type ≠ 0)
    (fun k hk hd de hmem hnz => ⟨hr.range k hk.1 hd de hmem, hc k hk.1 hd de hmem hnz⟩) hstart hw
  exact hinv.2

section Namex

variable (h : Ctx sb s L [] N) (hr : Ready sb L N cp c) (path : List UInt8)

include h hr path

/-- `namex` finds what the walk along the elements of the path finds, and fails if that finds nothing. -/
theorem namex_exact (parent : Bool) :
    wp (namex sb cp path parent) (fun r s' =>
      (r = none ∧ (∀ j last, ¬ Resolved N parent (start c path) (elems path) j last) ∧ Ctx sb s' L [] N) ∨
      ∃ jp j last, r = some (jp, last) ∧ Resolved N parent (start c path) (elems path) j last ∧
        Ctx sb s' ((jp, j) ::ₘ L) [] N) (Lost sb.ninodes N L (start c path)) s := by
  rw [namex, wp_ite]
  refine ⟨fun hp => ?_, fun hp => ?_⟩
  · rw [wp_bind]
    refine wp_mono (wp_and (h.iget hr.root) iget_full) (fun ip s1 h1 => ?_) fun _ he => .inl ⟨he.1, ?_⟩
    · refine namexFrom_exact hr.range h.kept parent _ ?_ (Nat.lt_succ_self _)
      rw [start, if_pos hp]
      exact h1.1
    · exact (h.crowded he.2).trans (Nat.le_succ _)
  · rw [wp_bind]
    refine wp_imp (h.idup hr.cwd) fun ip s1 h1 => ?_
    obtain ⟨rfl, h1⟩ := h1
    refine namexFrom_exact hr.range h.kept parent _ ?_ (Nat.lt_succ_self _)
    rw [start, if_neg hp]
    exact h1

theorem namex_spec (parent : Bool) :
    wp (namex sb cp path parent) (fun r s' => (r = none ∧ Ctx sb s' L [] N) ∨
      ∃ jp j last, r = some (jp, last) ∧ Resolved N parent (start c path) (elems path) j last ∧
        Ctx sb s' ((jp, j) ::ₘ L) [] N) (Astray sb.ninodes N c) s :=
  wp_mono (namex_exact h hr path parent) (fun _ _ hres => hres.imp_left fun hnone => ⟨hnone.1, hnone.2.2⟩)
    fun _ he => he.stray.astray

theorem namei_spec :
    wp (namei sb cp path) (fun r s' => (r = none ∧ Ctx sb s' L [] N) ∨
      ∃ jp j, r = some jp ∧ walk N (start c path) (elems path) = some j ∧ Ctx sb s' ((jp, j) ::ₘ L) [] N)
      (Astray sb.ninodes N c) s := by
  rw [namei, wp_bind]
  refine wp_mono (namex_spec h hr path false) (fun r s1 h1 => ?_) fun _ he => he
  rcases h1 with ⟨rfl, h1⟩ | ⟨jp, j, last, rfl, hres, h1⟩
  · exact Or.inl ⟨rfl, h1⟩
  · exact Or.inr ⟨jp, j, rfl, hres, h1⟩

theorem nameiparent_spec :
    wp (nameiparent sb cp path) (fun r s' => (r = none ∧ Ctx sb s' L [] N) ∨
      ∃ dp d name, r = some (dp, name) ∧ WalkParent N (start c path) (elems path) d name ∧
        Ctx sb s' ((dp, d) ::ₘ L) [] N) (Astray sb.ninodes N c) s :=
  namex_spec h hr path true

end Namex

end Namex

end Xv6.Fs
