import Xv6.Sanity.Links
import Xv6.Spec.FileRun

/-! What every call keeps: entries name inodes that exist, and an inode that is referred to keeps its type and is not
handed out again. -/

namespace Xv6.Fs

open Wp

/-- A change of the nodes that keeps the entries in range and leaves the inodes that `L` refers to allocated as they are. -/
structure Tame (n : ℕ) (L : Multiset (Ip × ℕ)) (N N' : ℕ → Node) : Prop where
  range : InRange n N → InRange n N'
  kept : ∀ r ∈ L, (N r.2).type ≠ 0 → (N' r.2).type = (N r.2).type ∧ (N' r.2).gen = (N r.2).gen

section Tame

variable {n i d k : ℕ} {L L' : Multiset (Ip × ℕ)} {N N' N'' : ℕ → Node} {de : Dirent} {x : Node}

theorem Tame.refl : Tame n L N N := ⟨id, fun _ _ _ => ⟨rfl, rfl⟩⟩

theorem Tame.trans (h : Tame n L N N') (h' : Tame n L N' N'') : Tame n L N N'' := by
  refine ⟨fun hr => h'.range (h.range hr), fun r hr ht => ?_⟩
  obtain ⟨ht1, hg1⟩ := h.kept r hr ht
  obtain ⟨ht2, hg2⟩ := h'.kept r hr (by rwa [ht1])
  exact ⟨ht2.trans ht1, hg2.trans hg1⟩

theorem Tame.mono (h : Tame n L N N') (hle : L' ≤ L) : Tame n L' N N' :=
  ⟨h.range, fun r hr => h.kept r (Multiset.mem_of_le hle hr)⟩

theorem Tame.alive (h : Tame n L N N') (ha : ∀ r ∈ L, (N r.2).type ≠ 0) : ∀ r ∈ L, (N' r.2).type ≠ 0 := fun r hr => by
  rw [(h.kept r hr (ha r hr)).1]
  exact ha r hr

/-- A node that nothing in `L` needs is replaced. -/
theorem tame_update (hL : ∀ r ∈ L, (N r.2).type ≠ 0 → r.2 ≠ i) (hx : x.type = T_DIR → ∀ e ∈ x.ents, e.inum.toNat < n) :
    Tame n L N (Function.update N i x) := by
  refine ⟨fun hr j hj hd e he => ?_, fun r hr ht => ?_⟩
  · by_cases hji : j = i
    · subst hji
      rw [Function.update_self] at hd he
      exact hx hd e he
    · rw [Function.update_of_ne hji] at hd he
      exact hr j hj hd e he
  · rw [Function.update_of_ne (hL r hr ht)]
    exact ⟨rfl, rfl⟩

theorem tame_free (hfree : (N i).type = 0) (hx : x.type = T_DIR → ∀ e ∈ x.ents, e.inum.toNat < n) :
    Tame n L N (Function.update N i x) :=
  tame_update (fun _ _ ht he => ht (he ▸ hfree)) hx

theorem tame_release : Tame n L N (release N L i) := by
  unfold release
  split_ifs with hl
  · exact tame_update (fun r hr _ => hl.2.2 r hr) fun hd => absurd hd (by change (0 : Int16) ≠ 1; decide)
  · exact .refl

theorem tame_relink (m : Int16) : Tame n L N (relink N i m) := by
  refine ⟨fun hr j hj hd e he => ?_, fun r _ _ => ⟨relink_type _, ?_⟩⟩
  · rw [relink_type] at hd
    rw [relink_ents] at he
    exact hr j hj hd e he
  · by_cases h : r.2 = i
    · rw [h, relink, Function.update_self]
    · rw [relink_of_ne h]

theorem mem_setEnt {ents : List Dirent} {e : Dirent} (h : e ∈ setEnt ents k de) : e ∈ ents ∨ e = de := by
  unfold setEnt at h
  split_ifs at h
  · exact List.mem_or_eq_of_mem_set h
  · simpa using h

theorem tame_putEnt (hde : de.inum.toNat < n) : Tame n L N (putEnt N d k de) := by
  refine ⟨fun hr j hj hd e he => ?_, fun r _ _ => ⟨putEnt_type _, ?_⟩⟩
  · rw [putEnt_type] at hd
    by_cases h : j = d
    · subst h
      rw [putEnt_self] at he
      rcases mem_setEnt he with he | rfl
      · exact hr j hj hd e he
      · exact hde
    · rw [putEnt_of_ne h] at he
      exact hr j hj hd e he
  · by_cases h : r.2 = d
    · rw [h, putEnt_self]
    · rw [putEnt_of_ne h]

theorem tame_unmade (h : Unmade N N') : Tame n L N N' := by
  obtain rfl | ⟨i, hfree, rfl⟩ := h
  · exact .refl
  · exact tame_free hfree fun hd => absurd hd (by change (0 : Int16) ≠ 1; decide)

end Tame

section Calls

variable {sb : Superblock} {s : State} {L : Multiset (Ip × ℕ)} {N : ℕ → Node} {ip : Ip} {d i k : ℕ} {name : List UInt8}
  {type : Int16}

theorem toNat_inum (hsb : sb.Wf) (hi : i < sb.ninodes) : (UInt16.ofNat i).toNat = i :=
  UInt16.toNat_ofNat_of_lt' (hi.trans_le hsb.inums)

theorem tame_made (hsb : sb.Wf) (hv : Vacant sb.ninodes N d i k name) :
    Tame sb.ninodes L N (made N d i k name type) := by
  have hnew : Tame sb.ninodes L N (Function.update N i (newNode type i d (N i).gen)) := by
    refine tame_free hv.free fun ht e he => ?_
    rw [newNode] at ht he
    rw [if_pos ht, dots, List.mem_cons, List.mem_singleton] at he
    rcases he with rfl | rfl
    · rw [toNat_inum hsb hv.lt]
      exact hv.lt
    · rw [toNat_inum hsb hv.dlt]
      exact hv.dlt
  have hinum : (Dirent.mk (UInt16.ofNat i) (stored name)).inum.toNat < sb.ninodes := by
    rw [toNat_inum hsb hv.lt]
    exact hv.lt
  have hput := hnew.trans (tame_putEnt (d := d) (k := k) hinum)
  unfold made
  split_ifs
  · exact hput.trans (tame_relink 1)
  · exact hput

theorem made_type (hv : Vacant sb.ninodes N d i k name) : (made N d i k name type i).type = type := by
  have hput : (putEnt (Function.update N i (newNode type i d (N i).gen)) d k ⟨UInt16.ofNat i, stored name⟩ i).type = type := by
    rw [putEnt_type, Function.update_self]
    rfl
  unfold made
  split_ifs
  · rw [Function.update_of_ne hv.ne]
    exact hput
  · exact hput

/-- `create` of a new inode. -/
theorem tame_new (hsb : sb.Wf) (hv : Vacant sb.ninodes N d i k name) :
    Tame sb.ninodes L N (release (made N d i k name type) ((ip, i) ::ₘ L) d) :=
  (tame_made hsb hv).trans (tame_release.mono (Multiset.le_cons_self L _))

theorem new_type (hv : Vacant sb.ninodes N d i k name) :
    (release (made N d i k name type) ((ip, i) ::ₘ L) d i).type = type := by
  unfold release
  split_ifs
  · rw [Function.update_of_ne hv.ne, made_type hv]
  · exact made_type hv

theorem tame_unlinked (hn : 0 < sb.ninodes) : Tame sb.ninodes L N (unlinked N L ip d i k) := by
  have hput : Tame sb.ninodes L N (unnamed N d i k) := by
    unfold unnamed
    split_ifs
    · exact (tame_putEnt hn).trans (tame_relink _)
    · exact tame_putEnt hn
  have hdir : Tame sb.ninodes L (unnamed N d i k) (release (unnamed N d i k) ((ip, i) ::ₘ L) d) :=
    tame_release.mono (Multiset.le_cons_self L _)
  exact ((hput.trans hdir).trans (tame_relink _)).trans tame_release

end Calls

section Tidy

variable {sb : Superblock} {s s' : State} {L : Multiset (Ip × ℕ)} {N : ℕ → Node} {ip : Ip} {i : ℕ}

/-- No lock is held, entries are in range, and all references are to allocated inodes. -/
structure Tidy (sb : Superblock) (s : State) (L : Multiset (Ip × ℕ)) (N : ℕ → Node) : Prop where
  ctx : Ctx sb s L [] N
  range : InRange sb.ninodes N
  alive : ∀ r ∈ L, (N r.2).type ≠ 0

theorem Tidy.tame {N' : ℕ → Node} (h : Tidy sb s L N) (ht : Tame sb.ninodes L N N') (hc : Ctx sb s' L [] N') : Tidy sb s' L N' :=
  ⟨hc, ht.range h.range, ht.alive h.alive⟩

theorem Tidy.typeOf (h : Tidy sb s L N) (hi : i < sb.ninodes) : typeOf sb s i = (N i).type := by
  rw [← h.ctx.type hi, h.ctx.inv.clean i hi]
  rfl

theorem Tidy.ready (h : Tidy sb s L N) (hroot : ROOTINO < sb.ninodes) (hr : (ip, i) ∈ L) : Ready sb L N ip i :=
  ⟨h.range, h.alive, hr, hroot⟩

/-- Reading under the lock changes nothing. -/
theorem Ctx.readi_same {K : List Ip} (h : Ctx sb s L K N) (hr : (ip, i) ∈ L) (hk : ip ∈ K) (dst : Dst) (off n : UInt32) :
    wp (readi sb ip dst off n) (fun _ s' => s' = s) (fun _ => False) s := by
  have hl := h.live hr hk
  have ht := h.inv.tab.cur_type hl
  have hd : (s.itable ip).d = cur sb s i := (h.inv.tab.cur_live hl).symm
  refine Fs.readi_same h.inv.wf h.inv.tab h.inv.blk hl ?_ ?_ dst off n
  · rw [hd]
    exact h.inv.size i (h.lt hr) ht
  · rw [hd]
    exact h.inv.dense i (h.lt hr) ht

theorem Tidy.lock (h : Tidy sb s L N) (hr : (ip, i) ∈ L) :
    wp (ilock sb ip) (fun _ s' => s' = s.lock sb ip ∧ Ctx sb s' L [ip] N) (fun _ => False) s := by
  have hun : (s.itable ip).locked = false := by
    rw [← Bool.not_eq_true, h.ctx.lock]
    exact List.not_mem_nil
  refine wp_mono (wp_and (ilock_spec h.ctx.inv.tab (h.ctx.at hr) hun) (h.ctx.ilock hr List.not_mem_nil)) (fun _ s' hs => ?_)
    fun e he => ?_
  · exact ⟨hs.1.2, hs.2.2⟩
  · exact h.alive _ hr he.2.1

end Tidy

end Xv6.Fs
