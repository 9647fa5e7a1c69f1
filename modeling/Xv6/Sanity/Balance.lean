import Xv6.Sanity.Names
import Xv6.Sanity.Untouched

/-! What a call holds on its way: references, locks, and whether it is in a transaction. Nothing is assumed of the disk. -/

namespace Xv6.Fs

open Wp

/-- The calls recorded in a transaction with `k` calls of `iput` in it. -/
def transaction (k : ℕ) : List TxEvent := .beginOp :: (List.replicate k .iput ++ [.endOp])

/-- Since `t` there have been whole transactions, and one is open if `inTx`. -/
def Traced (t : List TxEvent) (inTx : Bool) (trace : List TxEvent) : Prop :=
  ∃ ks : List ℕ, match inTx with
    | false => trace = t ++ ks.flatMap transaction
    | true => ∃ k, trace = t ++ ks.flatMap transaction ++ .beginOp :: List.replicate k .iput

/-- The call holds the references `H`, beside `base` others; the locks `K` are held, by it or by others. -/
structure Acct (base : Ip → ℕ) (t : List TxEvent) (inTx : Bool) (H : Multiset Ip) (K : Finset Ip) (s : State) : Prop where
  ref : ∀ jp, (s.itable jp).ref = base jp + H.count jp
  lock : ∀ jp, (s.itable jp).locked = true ↔ jp ∈ K
  trace : Traced t inTx s.trace

variable {sb : Superblock} {base : Ip → ℕ} {t : List TxEvent} {inTx : Bool} {H : Multiset Ip} {K : Finset Ip} {s s' : State}
  {ip dp cp : Ip}

section Rules

theorem Acct.congr (h : Acct base t inTx H K s) (hs : s'.held = s.held) : Acct base t inTx H K s' := by
  have hent : ∀ jp, (s'.itable jp).ref = (s.itable jp).ref ∧ (s'.itable jp).locked = (s.itable jp).locked := fun jp =>
    Prod.ext_iff.mp (congrFun (congrArg Prod.fst hs) jp)
  refine ⟨fun jp => (hent jp).1.trans (h.ref jp), fun jp => ?_, ?_⟩
  · rw [(hent jp).2]
    exact h.lock jp
  · rw [show s'.trace = s.trace from congrArg Prod.snd hs]
    exact h.trace

/-- A part of the call that leaves all of it alone. -/
theorem Acct.untouched {α : Type} {m : FsM α} (h : Acct base t inTx H K s) (hm : Preserves State.held m) :
    wp m (fun _ s' => Acct base t inTx H K s') (fun _ => True) s :=
  wp_mono (hm.wp s) (fun _ _ hs => h.congr hs) fun _ => id

theorem Acct.beginOp (h : Acct base t false H K s) : wp beginOp (fun _ s' => Acct base t true H K s') (fun _ => True) s := by
  obtain ⟨ks, hks⟩ := h.trace
  exact ⟨h.ref, h.lock, ks, 0, congrArg (· ++ [TxEvent.beginOp]) hks⟩

theorem Acct.endOp (h : Acct base t true H K s) : wp endOp (fun _ s' => Acct base t false H K s') (fun _ => True) s := by
  obtain ⟨ks, k, hks⟩ := h.trace
  refine ⟨h.ref, h.lock, ks ++ [k], ?_⟩
  change s.trace ++ [TxEvent.endOp] = _
  rw [hks, List.flatMap_append, List.flatMap_singleton, transaction]
  simp only [List.append_assoc, List.cons_append]

/-- The entry `ip` of the table is changed, in what is counted by the reference `H'` and the lock `K'`. -/
theorem Acct.entry {e : Inode} {H' : Multiset Ip} {K' : Finset Ip} (h : Acct base t inTx H K s)
    (hr : e.ref = base ip + H'.count ip) (hl : e.locked = true ↔ ip ∈ K') (hH : ∀ jp, jp ≠ ip → H'.count jp = H.count jp)
    (hK : ∀ jp, jp ≠ ip → (jp ∈ K' ↔ jp ∈ K)) : Acct base t inTx H' K' (s.setInode ip e) := by
  refine ⟨fun jp => ?_, fun jp => ?_, h.trace⟩
  · by_cases hj : jp = ip
    · subst hj
      simpa only [State.setInode, Function.update_self] using hr
    · simpa only [State.setInode, Function.update_of_ne hj, hH jp hj] using h.ref jp
  · by_cases hj : jp = ip
    · subst hj
      simpa only [State.setInode, Function.update_self] using hl
    · simpa only [State.setInode, Function.update_of_ne hj, hK jp hj] using h.lock jp

/-- One more reference to `ip`. -/
theorem Acct.refer {e : Inode} (h : Acct base t inTx H K s) (hr : e.ref = (s.itable ip).ref + 1)
    (hl : e.locked = (s.itable ip).locked) : Acct base t inTx (ip ::ₘ H) K (s.setInode ip e) := by
  refine h.entry ?_ ?_ (fun jp hj => Multiset.count_cons_of_ne hj H) fun _ _ => Iff.rfl
  · rw [hr, h.ref, Multiset.count_cons_self, Nat.add_assoc]
  · rw [hl]
    exact h.lock ip

theorem Acct.iget (h : Acct base t inTx H K s) (dev inum : ℕ) :
    wp (iget dev inum) (fun ip s' => Acct base t inTx (ip ::ₘ H) K s') (fun _ => True) s := by
  simp only [Fs.iget, wp_bind, wp_get]
  split
  · exact h.refer rfl rfl
  · split
    · rename_i ip hfind
      have hzero : (s.itable ip).ref = 0 := by simpa using List.find?_some hfind
      exact h.refer (by rw [hzero]) rfl
    · trivial

theorem Acct.idup (h : Acct base t inTx H K s) (ip : Ip) :
    wp (idup ip) (fun r s' => r = ip ∧ Acct base t inTx (ip ::ₘ H) K s') (fun _ => True) s :=
  ⟨rfl, h.refer rfl rfl⟩

theorem Acct.acquiresleep (h : Acct base t inTx H K s) (ip : Ip) :
    wp (acquiresleep ip) (fun _ s' => ip ∉ K ∧ Acct base t inTx H (insert ip K) s') (fun _ => True) s := by
  simp only [Fs.acquiresleep, getInode, wp_bind, wp_get, wp_pure]
  rw [wp_ite]
  refine ⟨fun _ => trivial, fun hfree => ⟨fun hk => hfree ((h.lock ip).mpr hk), ?_⟩⟩
  refine h.entry (h.ref ip) ?_ (fun _ _ => rfl) fun jp hj => ?_
  · simp
  · simp [hj]

theorem Acct.releasesleep (h : Acct base t inTx H (insert ip K) s) (hk : ip ∉ K) :
    wp (releasesleep ip) (fun _ s' => Acct base t inTx H K s') (fun _ => True) s := by
  refine h.entry (h.ref ip) ?_ (fun _ _ => rfl) fun jp hj => ?_
  · simpa using hk
  · simp [hj]

theorem Acct.ilock (h : Acct base t inTx H K s) (ip : Ip) :
    wp (ilock sb ip) (fun _ s' => ip ∉ K ∧ Acct base t inTx H (insert ip K) s') (fun _ => True) s := by
  simp only [Fs.ilock, getInode, wp_bind, wp_get, wp_pure]
  rw [wp_ite]
  refine ⟨fun _ => trivial, fun _ => ?_⟩
  rw [wp_bind]
  refine wp_mono (h.acquiresleep ip) (fun _ s1 h1 => ?_) fun _ => id
  simp only [bread, setInode, wp_bind, wp_get, wp_pure, wp_modify, wp_ite, Fs.panic, wp_throw]
  exact ⟨fun _ => h1, fun _ => ⟨fun _ => trivial, fun _ => ⟨h1.1, h1.2.congr (held_setInode rfl rfl)⟩⟩⟩

theorem Acct.iunlock (h : Acct base t inTx H (insert ip K) s) (hk : ip ∉ K) :
    wp (iunlock ip) (fun _ s' => Acct base t inTx H K s') (fun _ => True) s := by
  simp only [Fs.iunlock, getInode, wp_bind, wp_get, wp_pure]
  rw [wp_ite]
  exact ⟨fun _ => trivial, fun _ => h.releasesleep hk⟩

/-- Freeing an inode takes the lock and gives it back. -/
theorem Acct.freeUnlinked (h : Acct base t inTx H K s) :
    wp (freeUnlinked sb ip) (fun _ s' => Acct base t inTx H K s') (fun _ => True) s := by
  simp only [Fs.freeUnlinked, getInode, wp_bind, wp_get, wp_pure]
  rw [wp_ite]
  refine ⟨fun _ => ?_, fun _ => h⟩
  rw [wp_bind]
  refine wp_mono (h.acquiresleep ip) (fun _ s1 h1 => ?_) fun _ => id
  rw [wp_bind]
  refine wp_mono (h1.2.untouched preserves_itrunc) (fun _ s2 h2 => ?_) fun _ => id
  rw [wp_bind]
  refine wp_mono (h2.untouched (preserves_setD _)) (fun _ s3 h3 => ?_) fun _ => id
  rw [wp_bind]
  refine wp_mono (h3.untouched preserves_iupdate) (fun _ s4 h4 => ?_) fun _ => id
  simp only [setInode, wp_bind, wp_get, wp_pure, wp_modify]
  have h5 : Acct base t inTx H (insert ip K) (s4.setInode ip { s4.itable ip with valid := false }) :=
    h4.congr (held_setInode rfl rfl)
  exact h5.releasesleep h1.1

theorem Acct.iput (h : Acct base t true (ip ::ₘ H) K s) :
    wp (iput sb ip) (fun _ s' => Acct base t true H K s') (fun _ => True) s := by
  rw [Fs.iput, wp_bind]
  refine wp_mono h.freeUnlinked (fun _ s1 h1 => ?_) fun _ => id
  simp only [getInode, setInode, wp_bind, wp_get, wp_pure, wp_modify]
  have h2 : Acct base t true (ip ::ₘ H) K (s1.note .iput) := by
    refine ⟨h1.ref, h1.lock, ?_⟩
    obtain ⟨ks, k, hks⟩ := h1.trace
    refine ⟨ks, k + 1, (congrArg (· ++ [TxEvent.iput]) hks).trans ?_⟩
    rw [List.replicate_succ', List.append_assoc, List.append_assoc, List.append_assoc]
    rfl
  refine h2.entry ?_ (h1.lock ip) (fun jp hj => (Multiset.count_cons_of_ne hj H).symm) fun _ _ => Iff.rfl
  have href := h1.ref ip
  rw [Multiset.count_cons_self] at href
  change (s1.itable ip).ref - 1 = _
  omega

theorem Acct.iunlockput (h : Acct base t true (ip ::ₘ H) (insert ip K) s) (hk : ip ∉ K) :
    wp (iunlockput sb ip) (fun _ s' => Acct base t true H K s') (fun _ => True) s := by
  rw [Fs.iunlockput, wp_bind]
  exact wp_mono (h.iunlock hk) (fun _ s1 h1 => h1.iput) fun _ => id

/-- The reference to drop need not be the last one taken. -/
theorem Acct.swap {jp : Ip} (h : Acct base t inTx (jp ::ₘ ip ::ₘ H) K s) : Acct base t inTx (ip ::ₘ jp ::ₘ H) K s := by
  rwa [Multiset.cons_swap]

end Rules

section Dir

/-- The references with the one that was found, if any. -/
def took : Option Ip → Multiset Ip → Multiset Ip
  | none, H => H
  | some ip, H => ip ::ₘ H

theorem Acct.dirlookup (h : Acct base t inTx H K s) (name : List UInt8) :
    wp (dirlookup sb dp name) (fun r s' => Acct base t inTx (took (r.map Prod.fst) H) K s') (fun _ => True) s := by
  have hfrom : ∀ n off s, Acct base t inTx H K s → wp (dirlookupFrom sb dp name n off)
      (fun r s' => Acct base t inTx (took (r.map Prod.fst) H) K s') (fun _ => True) s := by
    intro n
    induction n with
    | zero => exact fun off s h => h
    | succ n ih =>
      intro off s h
      rw [dirlookupFrom, wp_bind]
      refine wp_mono (h.untouched preserves_getInode) (fun e s1 h1 => ?_) fun _ => id
      rw [wp_ite]
      refine ⟨fun _ => ?_, fun _ => h1⟩
      rw [wp_bind]
      refine wp_mono (h1.untouched (preserves_readi _ _ _)) (fun r s2 h2 => ?_) fun _ => id
      rw [wp_ite]
      refine ⟨fun _ => trivial, fun _ => ?_⟩
      simp only [wp_ite, wp_bind, wp_pure]
      exact ⟨fun _ => ih _ s2 h2, fun _ => ⟨fun _ => h2.iget _ _, fun _ => ih _ s2 h2⟩⟩
  rw [Fs.dirlookup, wp_bind]
  refine wp_mono (h.untouched preserves_getInode) (fun e s1 h1 => ?_) fun _ => id
  rw [wp_ite]
  exact ⟨fun _ => trivial, fun _ => hfrom _ _ s1 h1⟩

theorem Acct.namexFrom (parent : Bool) (n : ℕ) {path : List UInt8} (h : Acct base t true (ip ::ₘ H) K s) (hn : path.length < n)
    (name : List UInt8) :
    wp (namexFrom sb parent n ip path name) (fun r s' => Acct base t true (took (r.map Prod.fst) H) K s') (fun _ => True) s := by
  induction n generalizing ip path name s with
  | zero => exact absurd hn (Nat.not_lt_zero _)
  | succ n ih =>
    rw [Fs.namexFrom]
    cases hskip : skipelem path with
    | none =>
      simp only
      rw [wp_ite]
      refine ⟨fun _ => ?_, fun _ => h⟩
      rw [wp_bind]
      exact wp_mono h.iput (fun _ _ => id) fun _ => id
    | some r =>
      have hlt : r.2.length < n := by
        have := skipelem_length hskip
        omega
      simp only [wp_bind]
      refine wp_mono (h.ilock ip) (fun _ s1 h1 => ?_) fun _ => id
      obtain ⟨hk, h1⟩ := h1
      refine wp_mono (h1.untouched preserves_getInode) (fun e s2 h2 => ?_) fun _ => id
      rw [wp_ite]
      refine ⟨fun _ => ?_, fun _ => ?_⟩
      · rw [wp_bind]
        exact wp_mono (h2.iunlockput hk) (fun _ _ => id) fun _ => id
      rw [wp_ite]
      refine ⟨fun _ => ?_, fun _ => ?_⟩
      · rw [wp_bind]
        exact wp_mono (h2.iunlock hk) (fun _ _ => id) fun _ => id
      rw [wp_bind]
      refine wp_mono (h2.dirlookup r.1) (fun found s3 h3 => ?_) fun _ => id
      cases found with
      | none =>
        simp only [wp_bind]
        exact wp_mono (h3.iunlockput hk) (fun _ _ => id) fun _ => id
      | some next =>
        simp only [wp_bind]
        refine wp_mono (h3.swap.iunlockput hk) (fun _ s4 h4 => ?_) fun _ => id
        exact ih h4 hlt r.1

theorem Acct.namex (h : Acct base t true H K s) (cp : Ip) (path : List UInt8) (parent : Bool) :
    wp (namex sb cp path parent) (fun r s' => Acct base t true (took (r.map Prod.fst) H) K s') (fun _ => True) s := by
  rw [Fs.namex]
  split_ifs
  · rw [wp_bind]
    exact wp_mono (h.iget _ _) (fun ip s1 h1 => h1.namexFrom parent _ (Nat.lt_succ_self _) []) fun _ => id
  · rw [wp_bind]
    refine wp_mono (h.idup cp) (fun ip s1 h1 => ?_) fun _ => id
    obtain ⟨rfl, h1⟩ := h1
    exact h1.namexFrom parent _ (Nat.lt_succ_self _) []

theorem Acct.namei (h : Acct base t true H K s) (cp : Ip) (path : List UInt8) :
    wp (namei sb cp path) (fun r s' => Acct base t true (took r H) K s') (fun _ => True) s := by
  rw [Fs.namei, wp_bind]
  refine wp_mono (h.namex cp path false) (fun r s1 h1 => ?_) fun _ => id
  cases r with
  | none => exact h1
  | some r => exact h1

end Dir

end Xv6.Fs
