import Xv6.Sanity.Mkfs
import Xv6.Sanity.SysCalls

/-! The blocks that one call of `writei` logs, on a disk with any number of bitmap blocks. -/

namespace Xv6.Fs

open Bytes Wp

variable {sb : Superblock} {s0 s s' : State} {ip : Ip} {bn : ℕ} {D I : Finset ℕ} {ind : UInt32}

/-- Block `bn` of the file has an address. -/
def BlockAt (s : State) (ip : Ip) (bn : ℕ) : Prop :=
  if h : bn < NDIRECT then (s.itable ip).d.addrs ⟨bn, Nat.lt_succ_of_lt h⟩ ≠ 0
  else (s.itable ip).d.addrs (Fin.last NDIRECT) ≠ 0 ∧
    (s.disk ((s.itable ip).d.addrs (Fin.last NDIRECT)).toNat).get32 (4 * (bn - NDIRECT)) ≠ 0

/-- What has been logged since `s0` are blocks of `D`, and of `I`: the indirect block, and the bitmap block of its bit if it
is new. -/
structure Spent (s0 : State) (ip : Ip) (D I : Finset ℕ) (s : State) : Prop where
  inum : (s.itable ip).inum = (s0.itable ip).inum
  logged : ∃ l, s.logged = s0.logged ++ l ∧ l.toFinset ⊆ D ∪ I
  none : (s.itable ip).d.addrs (Fin.last NDIRECT) = 0 → I = ∅
  some : (s.itable ip).d.addrs (Fin.last NDIRECT) ≠ 0 → ((s.itable ip).d.addrs (Fin.last NDIRECT)).toNat ∈ I
  two : I.card ≤ 2

theorem writeiFrom_end {src : Src} {n tot off : ℕ} (h : n ≤ tot) (m : ℕ) : writeiFrom sb ip src n m tot off = pure (tot, off) := by
  cases m with
  | zero => rfl
  | succ m => rw [writeiFrom, if_neg (by omega)]

section Spent

theorem Spent.start (s : State) (ip : Ip) : ∃ I, Spent s ip ∅ I s := by
  by_cases h : (s.itable ip).d.addrs (Fin.last NDIRECT) = 0
  · exact ⟨∅, rfl, ⟨[], by simp, by simp⟩, fun _ => rfl, fun hne => absurd h hne, by simp⟩
  · exact ⟨{((s.itable ip).d.addrs (Fin.last NDIRECT)).toNat}, rfl, ⟨[], by simp, by simp⟩, fun h0 => absurd h0 h, fun _ => by simp,
      by simp⟩

theorem Spent.mono {D' : Finset ℕ} (h : Spent s0 ip D I s) (hD : D ⊆ D') : Spent s0 ip D' I s := by
  obtain ⟨l, hl, hsub⟩ := h.logged
  exact ⟨h.inum, ⟨l, hl, hsub.trans (Finset.union_subset_union_left hD)⟩, h.none, h.some, h.two⟩

theorem Spent.write {b : ℕ} (h : Spent s0 ip D I s) (hb : b ∈ D ∪ I) (data : Block) : Spent s0 ip D I (s.write b data) := by
  obtain ⟨l, hl, hsub⟩ := h.logged
  refine ⟨h.inum, ⟨l ++ [b], ?_, ?_⟩, h.none, h.some, h.two⟩
  · show s.logged ++ [b] = s0.logged ++ (l ++ [b])
    rw [hl, List.append_assoc]
  · rw [List.toFinset_append]
    refine Finset.union_subset hsub ?_
    simpa using hb

theorem Spent.poke (h : Spent s0 ip D I s) (b : ℕ) (data : Block) : Spent s0 ip D I (s.poke b data) :=
  ⟨h.inum, h.logged, h.none, h.some, h.two⟩

/-- The other fields of the inode change. -/
theorem Spent.setD {d : Dinode} (h : Spent s0 ip D I s)
    (hd : d.addrs (Fin.last NDIRECT) = (s.itable ip).d.addrs (Fin.last NDIRECT)) : Spent s0 ip D I (s.setD ip d) := by
  have hself : ((s.setD ip d).itable ip) = { s.itable ip with d := d } := Function.update_self ..
  refine ⟨?_, h.logged, ?_, ?_, h.two⟩
  · rw [hself]
    exact h.inum
  · rw [hself, hd]
    exact h.none
  · rw [hself, hd]
    exact h.some

/-- A new block, which is to be a block of data. -/
theorem Spent.alloc (h : Spent s0 ip D I s) (c : ℕ) : Spent s0 ip (insert c (insert (sb.bblock c) D)) I (s.alloc sb c) := by
  have h' := h.mono ((Finset.subset_insert (sb.bblock c) D).trans (Finset.subset_insert c _))
  exact (h'.write (by simp) _).write (by simp) _

theorem Spent.card_le (h : Spent s0 ip D I s) {l : List ℕ} (hl : s.logged = s0.logged ++ l) : l.toFinset.card ≤ D.card + 2 := by
  obtain ⟨l', hl', hsub⟩ := h.logged
  obtain rfl : l' = l := List.append_cancel_left (hl'.symm.trans hl)
  exact (Finset.card_le_card hsub).trans ((Finset.card_union_le D I).trans (Nat.add_le_add_left h.two _))

end Spent

section Blocks

theorem card_insert_two (D : Finset ℕ) (a b : ℕ) : (insert a (insert b D)).card ≤ D.card + 2 :=
  (Finset.card_insert_le a _).trans (Nat.succ_le_succ (Finset.card_insert_le b D))

/-- A block that has its address is found without an allocation. -/
theorem bmap_there (h : BlockAt s ip bn) (hbn : bn < MAXFILE) : wp (bmap sb ip bn) (fun _ s' => s' = s) (fun _ => False) s := by
  unfold BlockAt at h
  unfold bmap
  split_ifs at h ⊢ with hd hi
  · simp only [addrOrAlloc, getInode, wp_bind, wp_get, wp_pure, wp_ite]
    exact ⟨fun h0 => absurd h0 h, fun _ => trivial⟩
  · simp only [addrOrAlloc, bmapEntry, bread, getInode, wp_bind, wp_get, wp_pure, wp_ite]
    exact ⟨fun h0 => absurd h0 h.1, fun _ => ⟨fun _ => trivial, fun _ => ⟨fun h0 => absurd h0 h.2, fun _ => trivial⟩⟩⟩
  · simp only [MAXFILE] at hbn
    omega

variable (hsize : sb.size ≤ 2 ^ 32)

include hsize

theorem balloc_two (s : State) :
    wp (balloc sb) (fun r s' => (r = 0 ∧ s' = s) ∨ s' = s.alloc sb r.toNat) (fun _ => False) s := by
  refine wp_mono (ballocFrom_spec _ rfl) (fun r s1 h1 => ?_) fun _ => id
  rcases h1 with h1 | ⟨c, hc, -, rfl, rfl⟩
  · exact .inl h1
  · refine .inr ?_
    rw [UInt32.toNat_ofNat_of_lt' (by simp only [UInt32.size]; omega)]

/-- A new block of data, or none. -/
theorem balloc_spent (h : Spent s0 ip D I s) : wp (balloc sb) (fun r s' => ∃ D', D'.card ≤ D.card + 2 ∧ r.toNat ∈ D' ∧
    Spent s0 ip D' I s' ∧ s'.itable = s.itable) (fun _ => False) s := by
  refine wp_imp (balloc_two hsize s) fun r s1 h1 => ?_
  rcases h1 with ⟨rfl, rfl⟩ | rfl
  · exact ⟨insert _ D, (Finset.card_insert_le _ _).trans (by omega), Finset.mem_insert_self _ _, h.mono (Finset.subset_insert _ _), rfl⟩
  · exact ⟨_, card_insert_two D r.toNat _, Finset.mem_insert_self _ _, h.alloc r.toNat, rfl⟩

/-- A direct block. -/
theorem addrOrAlloc_spent (h : Spent s0 ip D I s) {k : Fin (NDIRECT + 1)} (hk : k ≠ Fin.last NDIRECT) :
    wp (addrOrAlloc sb ip k) (fun r s' => ∃ D', D'.card ≤ D.card + 2 ∧ r.toNat ∈ D' ∧ Spent s0 ip D' I s') (fun _ => False) s := by
  simp only [addrOrAlloc, getInode, wp_bind, wp_get, wp_pure, wp_ite]
  refine ⟨fun _ => wp_imp (balloc_spent hsize h) fun r s1 h1 => ?_, fun _ => ?_⟩
  · obtain ⟨D', hcard, hr, hs, -⟩ := h1
    refine ⟨fun h0 => ⟨D', hcard, h0 ▸ hr, hs⟩, fun _ => ?_⟩
    rw [wp_setD]
    exact ⟨D', hcard, hr, hs.setD (Function.update_of_ne hk.symm _ _)⟩
  · exact ⟨insert _ D, (Finset.card_insert_le _ _).trans (by omega), Finset.mem_insert_self _ _, h.mono (Finset.subset_insert _ _)⟩

/-- The indirect block. -/
theorem addrOrAlloc_indirect (h : Spent s0 ip D I s) : wp (addrOrAlloc sb ip (Fin.last NDIRECT)) (fun r s' =>
    (r = 0 ∧ ∃ D', D'.card ≤ D.card + 2 ∧ (0 : UInt32).toNat ∈ D' ∧ Spent s0 ip D' I s') ∨
    (r ≠ 0 ∧ ∃ I', r.toNat ∈ I' ∧ Spent s0 ip D I' s')) (fun _ => False) s := by
  simp only [addrOrAlloc, getInode, wp_bind, wp_get, wp_pure, wp_ite]
  refine ⟨fun hnone => ?_, fun hne => .inr ⟨hne, I, h.some hne, h⟩⟩
  refine wp_mono (wp_and (balloc_spent hsize h) (balloc_two hsize s)) (fun r s1 h1 => ?_) fun _ he => he.1
  obtain ⟨⟨D', hcard, hr, hs, -⟩, hnew⟩ := h1
  refine ⟨fun h0 => .inl ⟨trivial, D', hcard, h0 ▸ hr, hs⟩, fun hne => ?_⟩
  obtain rfl : s1 = s.alloc sb r.toNat := hnew.resolve_left fun h0 => hne h0.1
  obtain rfl : I = ∅ := h.none hnone
  rw [wp_setD]
  refine .inr ⟨hne, {r.toNat, sb.bblock r.toNat}, Finset.mem_insert_self _ _, ?_⟩
  obtain ⟨l, hl, hsub⟩ := h.logged
  have hself : ∀ d : Dinode, ((s.alloc sb r.toNat).setD ip d).itable ip = { s.itable ip with d := d } := fun d => Function.update_self ..
  refine ⟨?_, ⟨l ++ [sb.bblock r.toNat, r.toNat], ?_, ?_⟩, fun h0 => ?_, fun _ => ?_, Finset.card_le_two⟩
  · rw [hself]
    exact h.inum
  · show s.logged ++ [sb.bblock r.toNat] ++ [r.toNat] = _
    rw [hl]
    simp
  · rw [List.toFinset_append]
    refine Finset.union_subset (hsub.trans (Finset.union_subset_union_right (Finset.empty_subset _))) ?_
    intro x hx
    simp only [List.mem_toFinset, List.mem_cons, List.not_mem_nil, or_false] at hx
    rcases hx with rfl | rfl <;> simp
  · simp only [hself, Function.update_self] at h0
    exact absurd h0 hne
  · simp only [hself, Function.update_self]
    exact Finset.mem_insert_self _ _

theorem bmapEntry_spent (h : Spent s0 ip D I s) (hind : ind.toNat ∈ I) (j : ℕ) : wp (bmapEntry sb ind j) (fun r s' => ∃ D',
    D'.card ≤ D.card + 2 ∧ r.toNat ∈ D' ∧ Spent s0 ip D' I s') (fun _ => False) s := by
  simp only [bmapEntry, bread, logWrite, wp_bind, wp_get, wp_pure, wp_ite, wp_modify]
  refine ⟨fun _ => wp_imp (balloc_spent hsize h) fun r s1 h1 => ?_, fun _ => ?_⟩
  · obtain ⟨D', hcard, hr, hs, -⟩ := h1
    exact ⟨fun h0 => ⟨D', hcard, h0 ▸ hr, hs⟩, fun _ => ⟨D', hcard, hr, hs.write (Finset.mem_union_right _ hind) _⟩⟩
  · exact ⟨insert _ D, (Finset.card_insert_le _ _).trans (by omega), Finset.mem_insert_self _ _, h.mono (Finset.subset_insert _ _)⟩

theorem bmap_spent (h : Spent s0 ip D I s) (hbn : bn < MAXFILE) : wp (bmap sb ip bn) (fun r s' => ∃ D' I',
    D'.card ≤ D.card + 2 ∧ r.toNat ∈ D' ∧ Spent s0 ip D' I' s') (fun _ => False) s := by
  unfold bmap
  split_ifs with hd hi
  · refine wp_imp (addrOrAlloc_spent hsize h ?_) fun r s1 h1 => ?_
    · intro he
      simp [Fin.ext_iff, hd.ne] at he
    · obtain ⟨D', h1⟩ := h1
      exact ⟨D', I, h1⟩
  · rw [wp_bind]
    refine wp_imp (addrOrAlloc_indirect hsize h) fun r s1 h1 => ?_
    rw [wp_ite]
    rcases h1 with ⟨hr, D', h1⟩ | ⟨hr, I', hmem, hs⟩
    · exact ⟨fun _ => ⟨D', I, h1⟩, fun hne => absurd hr hne⟩
    · refine ⟨fun h0 => absurd h0 hr, fun _ => wp_imp (bmapEntry_spent hsize hs hmem _) fun r2 s2 h2 => ?_⟩
      obtain ⟨D', h2⟩ := h2
      exact ⟨D', I', h2⟩
  · simp only [MAXFILE] at hbn
    omega

end Blocks

section Loop

variable {src : Src} {n tot off c N : ℕ}

/-- At most `c` blocks besides the indirect block and the bitmap block of its bit. -/
def SpentUpTo (s0 : State) (ip : Ip) (c : ℕ) (s : State) : Prop := ∃ D I, D.card ≤ c ∧ Spent s0 ip D I s

/-- One pass of the loop. -/
theorem writeiPass_spent {k : ℕ} (hc : c ≤ N) (hlt : tot < n)
    (hb : wp (bmap sb ip (off / BSIZE)) (fun r s' => ∃ D I, D.card ≤ c ∧ r.toNat ∈ D ∧ Spent s0 ip D I s') (fun _ => False) s)
    (hrest : ∀ s1, SpentUpTo s0 ip c s1 →
      wp (writeiFrom sb ip src n k (tot + min (n - tot) (BSIZE - off % BSIZE)) (off + min (n - tot) (BSIZE - off % BSIZE)))
        (fun _ s' => SpentUpTo s0 ip N s') (fun _ => False) s1) :
    wp (writeiFrom sb ip src n (k + 1) tot off) (fun _ s' => SpentUpTo s0 ip N s') (fun _ => False) s := by
  rw [writeiFrom, if_pos hlt, wp_bind]
  refine wp_imp hb fun r s1 h1 => ?_
  obtain ⟨D, I, hcard, hr, hs⟩ := h1
  rw [wp_ite]
  refine ⟨fun _ => ⟨D, I, hcard.trans hc, hs⟩, fun _ => ?_⟩
  simp only [bread, wp_bind, wp_get, wp_pure]
  rcases src.copy tot (min (n - tot) (BSIZE - off % BSIZE)) with ⟨bytes, ok⟩
  simp only [logWrite, poke, wp_ite, wp_bind, wp_modify, wp_pure]
  exact ⟨fun _ => hrest _ ⟨D, I, hcard, hs.write (Finset.mem_union_left _ hr) _⟩, fun _ => ⟨D, I, hcard.trans hc, hs.poke _ _⟩⟩

/-- From the beginning of a block on, two blocks for each block of the file. -/
theorem writeiFrom_spent (hsize : sb.size ≤ 2 ^ 32) (q k : ℕ) (hq : n - tot ≤ q * BSIZE) (hoff : tot < n → off % BSIZE = 0)
    (hmax : off + (n - tot) ≤ MAXFILE * BSIZE) (h : SpentUpTo s0 ip c s) :
    wp (writeiFrom sb ip src n k tot off) (fun _ s' => SpentUpTo s0 ip (c + 2 * q) s') (fun _ => False) s := by
  induction k generalizing q tot off c s with
  | zero =>
    obtain ⟨D, I, hcard, hs⟩ := h
    exact ⟨D, I, by omega, hs⟩
  | succ k ih =>
    by_cases hlt : tot < n
    · obtain ⟨D, I, hcard, hs⟩ := h
      have hmod := hoff hlt
      obtain ⟨q, rfl⟩ : ∃ q', q = q' + 1 := Nat.exists_eq_succ_of_ne_zero (by rintro rfl; omega)
      have hbn : off / BSIZE < MAXFILE := by
        rw [Nat.div_lt_iff_lt_mul (by decide)]
        omega
      have hle : c + 2 ≤ c + 2 * (q + 1) := by omega
      refine writeiPass_spent hle hlt (wp_imp (bmap_spent hsize hs hbn) fun r s1 h1 => ?_) fun s1 h1 => ?_
      · obtain ⟨D', I', hD, hr, hs'⟩ := h1
        exact ⟨D', I', hD.trans (Nat.add_le_add_right hcard 2), hr, hs'⟩
      · rw [hmod, Nat.sub_zero, show c + 2 * (q + 1) = c + 2 + 2 * q by omega]
        simp only [BSIZE] at *
        exact ih q (by omega) (fun _ => by omega) (by omega) h1
    · rw [writeiFrom_end (Nat.not_lt.mp hlt), wp_pure]
      obtain ⟨D, I, hcard, hs⟩ := h
      exact ⟨D, I, by omega, hs⟩

/-- From anywhere in a file without holes: the first block is there, or it is written from its beginning on. -/
theorem writeiFrom_chunk (hsize : sb.size ≤ 2 ^ 32) (k : ℕ) (hn : n ≤ 3 * BSIZE) (hmax : off + n ≤ MAXFILE * BSIZE)
    (hfirst : off % BSIZE ≠ 0 → BlockAt s ip (off / BSIZE)) :
    wp (writeiFrom sb ip src n k 0 off) (fun _ s' => SpentUpTo s ip 7 s') (fun _ => False) s := by
  obtain ⟨I, hstart⟩ := Spent.start s ip
  have hnone : SpentUpTo s ip 0 s := ⟨∅, I, le_rfl, hstart⟩
  have hmore : ∀ {c : ℕ} {s' : State}, c ≤ 7 → SpentUpTo s ip c s' → SpentUpTo s ip 7 s' := by
    rintro c s' hc ⟨D, I, hcard, hs⟩
    exact ⟨D, I, hcard.trans hc, hs⟩
  by_cases hal : off % BSIZE = 0
  · exact wp_imp (writeiFrom_spent hsize 3 k (by omega) (fun _ => hal) (by omega) hnone) fun _ _ h => hmore (by decide) h
  · cases k with
    | zero => exact hmore (by decide) hnone
    | succ k =>
      by_cases hlt : 0 < n
      · have hbn : off / BSIZE < MAXFILE := by
          rw [Nat.div_lt_iff_lt_mul (by decide)]
          omega
        refine writeiPass_spent (by decide : 1 ≤ 7) hlt (wp_imp (bmap_there (hfirst hal) hbn) fun r s1 h1 => ?_) fun s1 h1 => ?_
        · exact ⟨{r.toNat}, I, by simp, by simp, h1 ▸ hstart.mono (Finset.empty_subset _)⟩
        · refine writeiFrom_spent hsize 3 k ?_ (fun hrest => ?_) ?_ h1
          · omega
          · simp only [BSIZE] at *
            omega
          · omega
      · rw [writeiFrom_end (Nat.not_lt.mp hlt), wp_pure]
        exact hmore (by decide) hnone

end Loop

/-- The block of the inode. -/
theorem iupdate_logged (s : State) (ip : Ip) :
    wp (iupdate sb ip) (fun _ s' => ∃ b, s'.logged = s.logged ++ [b]) (fun _ => False) s := by
  simp only [iupdate, getInode, bread, logWrite, wp_bind, wp_get, wp_modify, wp_pure]
  exact ⟨_, rfl⟩

/-- **One chunk of a write fits its reservation.** On any disk, a `writei` of at most three blocks' worth of bytes to a file without
holes passes at most `MAXOPBLOCKS` block numbers to `log_write`: one for the block that it begins in, two for each of
the three blocks behind it, two for the indirect block, and the inode's. -/
theorem write_chunk_fits (sb : Superblock) (hsize : sb.size ≤ 2 ^ 32) (s : State) (ip : Ip) (src : Src) (off n : UInt32)
    (hoff : off ≤ (s.itable ip).d.size) (hn : n.toNat ≤ (MAXOPBLOCKS - 1 - 1 - 2) / 2 * BSIZE)
    (hholes : ∀ bn, bn * BSIZE < (s.itable ip).d.size.toNat → BlockAt s ip bn) :
    ∃ r s' l, writei sb ip src off n s = .ok (r, s') ∧ s'.logged = s.logged ++ l ∧ l.toFinset.card ≤ MAXOPBLOCKS := by
  suffices hw : wp (writei sb ip src off n)
      (fun _ s' => ∃ l, s'.logged = s.logged ++ l ∧ l.toFinset.card ≤ MAXOPBLOCKS) (fun _ => False) s by
    obtain ⟨r, s', hrun, l, hl⟩ := wp_returns hw
    exact ⟨r, s', l, hrun, hl⟩
  have hnothing : ∃ l, s.logged = s.logged ++ l ∧ l.toFinset.card ≤ MAXOPBLOCKS := ⟨[], by simp, by simp⟩
  simp only [writei, getInode, wp_bind, wp_get, wp_pure, wp_ite]
  refine ⟨fun _ => hnothing, fun hwrap => ⟨fun _ => hnothing, fun hmax => ?_⟩⟩
  simp only [not_or, gt_iff_lt, UInt32.lt_iff_toNat_lt, UInt32.toNat_add] at hwrap hmax
  rw [UInt32.le_iff_toNat_le] at hoff
  have hn32 := n.toNat_lt
  have hoff32 := off.toNat_lt
  refine wp_imp (writeiFrom_chunk hsize n.toNat hn (by omega) fun hmod => hholes _ ?_) fun a s1 h1 => ?_
  · have := Nat.div_add_mod off.toNat BSIZE
    simp only [BSIZE] at *
    omega
  · obtain ⟨D, I, hcard, hs⟩ := h1
    rw [wp_setD]
    refine wp_imp (iupdate_logged _ ip) fun _ s2 h2 => ?_
    obtain ⟨b, hb⟩ := h2
    obtain ⟨l, hl, -⟩ := hs.logged
    have hl2 : s2.logged = s.logged ++ (l ++ [b]) := by
      rw [hb, ← List.append_assoc, ← hl]
      rfl
    have hlast : [b].toFinset.card ≤ 1 := List.toFinset_card_le [b]
    have hbefore := hs.card_le hl
    refine ⟨l ++ [b], hl2, ?_⟩
    rw [List.toFinset_append]
    refine (Finset.card_union_le _ _).trans ?_
    simp only [MAXOPBLOCKS]
    omega

/-- Three blocks to a file without any. -/
theorem write_chunk_fits_new : ∃ r s' l, writei smallSb 0 (.kernel (List.replicate 3072 7)) 0 3072 (.boot (mkfs smallSb)) = .ok (r, s') ∧
    s'.logged = (State.boot (mkfs smallSb)).logged ++ l ∧ l.toFinset.card ≤ MAXOPBLOCKS :=
  write_chunk_fits smallSb (by decide) (.boot (mkfs smallSb)) 0 (.kernel (List.replicate 3072 7)) 0 3072 (by decide) (by decide)
    fun bn hbn => absurd hbn (Nat.not_lt_zero _)

end Xv6.Fs
