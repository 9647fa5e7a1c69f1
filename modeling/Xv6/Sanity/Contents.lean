import Xv6.Sanity.Nodes

/-! The contents of a file as a list of bytes, and what `writei` and `readi` are on it. -/

namespace Xv6.Fs

open Bytes Wp

/-- `old` with `bytes` in the place of what is at `off`. -/
def overwrite (old : List UInt8) (off : ℕ) (bytes : List UInt8) : List UInt8 :=
  old.take off ++ bytes ++ old.drop (off + bytes.length)

/-- The bytes of file `i`. -/
def contents (sb : Superblock) (s : State) (i : ℕ) : List UInt8 := fileSlice sb s i 0 (cur sb s i).size.toNat

/-- Inode `i` is in the table and its block map is well formed: no block is in two places, those in use are marked, and
every block up to the size is there. -/
structure WellMapped (sb : Superblock) (s : State) (ip : Ip) (i : ℕ) : Prop where
  wf : sb.Wf
  tab : TableInv sb s
  blk : BlockInv sb s ∅
  live : Live s ip i
  size : (cur sb s i).size.toNat ≤ MAXFILE * BSIZE
  dense : ∀ o < (cur sb s i).size.toNat, owner sb s (fileSlot i (o / BSIZE)) ≠ none

variable {sb : Superblock} {s s' : State} {ip : Ip} {i j : ℕ} {src : Src} {off n tot : ℕ}

theorem FsInv.wellMapped (h : FsInv sb s) (hl : Live s ip i) : WellMapped sb s ip i := by
  have hi := h.tab.live_lt hl
  have ht : (cur sb s i).type ≠ 0 := by
    rw [h.tab.cur_live hl]
    exact (h.tab.type ip i hl).1
  exact ⟨h.wf, h.tab, h.blk, hl, h.size i hi ht, h.dense i hi ht⟩

section Slices

theorem fileSlice_take (off n m : ℕ) : (fileSlice sb s i off n).take m = fileSlice sb s i off (min m n) := by
  rw [fileSlice, ← List.map_take, List.take_range, fileSlice]

theorem fileSlice_drop (off n m : ℕ) : (fileSlice sb s i off n).drop m = fileSlice sb s i (off + m) (n - m) := by
  rcases le_total m n with hle | hle
  · obtain ⟨k, rfl⟩ := Nat.exists_eq_add_of_le hle
    rw [fileSlice_add, Nat.add_sub_cancel_left, List.drop_left' (by simp [fileSlice])]
  · rw [Nat.sub_eq_zero_of_le hle, List.drop_eq_nil_of_le (by simpa [fileSlice] using hle)]
    rfl

theorem fileSlice_congr_bytes (h : ∀ t < n, fileByte sb s' i (off + t) = fileByte sb s i (off + t)) :
    fileSlice sb s' i off n = fileSlice sb s i off n :=
  List.map_congr_left fun t ht => h t (List.mem_range.mp ht)

theorem contents_take (m : ℕ) : (contents sb s i).take m = fileSlice sb s i 0 (min m (cur sb s i).size.toNat) :=
  fileSlice_take 0 _ m

theorem contents_drop (m : ℕ) : (contents sb s i).drop m = fileSlice sb s i m ((cur sb s i).size.toNat - m) := by
  rw [contents, fileSlice_drop, Nat.zero_add]

/-- What `readi` reads. -/
theorem contents_slice (off n : ℕ) : ((contents sb s i).drop off).take n =
    fileSlice sb s i off (readLen (cur sb s i).size.toNat off n) := by
  rw [contents_drop, fileSlice_take, readLen]

theorem contents_congr (hcur : cur sb s' i = cur sb s i)
    (hbytes : ∀ o < (cur sb s i).size.toNat, fileByte sb s' i o = fileByte sb s i o) : contents sb s' i = contents sb s i := by
  rw [contents, contents, hcur]
  refine fileSlice_congr_bytes fun t ht => ?_
  rw [Nat.zero_add]
  exact hbytes t ht

/-- What `readi` returns for a file with bytes `c`. -/
def readOf (c : List UInt8) (off n : UInt32) : ℤ × List UInt8 :=
  if c.length < off.toNat ∨ off + n < off then (0, [])
  else (((c.drop off.toNat).take n.toNat).length, (c.drop off.toNat).take n.toNat)

theorem contents_length : (contents sb s i).length = (cur sb s i).size.toNat := by
  simp [contents, fileSlice]

theorem WellMapped.readi (h : WellMapped sb s ip i) {dst : Dst} {off n : UInt32} (hdst : dst.Takes n.toNat) :
    readi sb ip dst off n s = .ok (readOf (contents sb s i) off n, s) := by
  have hcur := h.tab.cur_live h.live
  have hcond : (contents sb s i).length < off.toNat ↔ off > (s.itable ip).d.size := by
    rw [contents_length, hcur, GT.gt, UInt32.lt_iff_toNat_lt]
  simp only [readOf, hcond]
  split_ifs with hout
  · change (ite (off > (s.itable ip).d.size ∨ off + n < off) _ _ : FsM _) s = _
    rw [if_pos hout]
    rfl
  · have hdst' : dst.Takes (readLen (s.itable ip).d.size.toNat off.toNat n.toNat) := hdst.mono (min_le_left _ _)
    have hmax := h.size
    have hown := h.dense
    rw [hcur] at hmax hown
    obtain ⟨r, s', hrun, rfl, hr⟩ := wp_returns (readi_dense h.wf h.tab h.blk h.live hmax hown dst off n)
    rw [hrun, hr hout hdst', contents_slice, hcur]
    simp [fileSlice]

end Slices

section Write

/-- The first `n` bytes of a source. -/
def Src.bytes (src : Src) (n : ℕ) : List UInt8 := (List.range n).map src.byte

/-- All of the `n` bytes can be read. -/
def Src.Readable (n : ℕ) : Src → Prop
  | .kernel bytes => bytes.length = n
  | .user mem => ∀ t < n, (mem t).isSome = true

theorem Src.readable_iff {src : Src} (h : src.Holds n) : src.Readable n ↔ ∀ t < n, src.Has t := by
  cases src with
  | kernel bytes => exact ⟨fun _ _ _ => trivial, fun _ => h⟩
  | user mem => exact Iff.rfl

theorem Src.Readable.holds (h : src.Readable n) : src.Holds n := by
  cases src with
  | kernel bytes => exact h
  | user mem => trivial

theorem Src.Readable.clean (h : src.Readable n) : src.Clean n 0 off := by
  intro t m _ hm _ _ _ hno
  rw [Src.copy_iff.mpr fun k hk => (Src.readable_iff h.holds).mp h (t + k) (by omega)] at hno
  cases hno

/-- What has been written has been read. -/
theorem writeiFrom_has (k : ℕ) (hk : n - tot ≤ k) (hle : tot ≤ n) : wp (writeiFrom sb ip src n k tot off)
    (fun r _ => r.1 ≤ n ∧ ∀ t, tot ≤ t → t < r.1 → src.Has t) (fun _ => True) s := by
  induction k generalizing tot off s with
  | zero => exact ⟨hle, fun t h1 h2 => absurd h2 (by omega)⟩
  | succ k ih =>
    have hstop : ∀ {s : State}, wp (pure (tot, off) : FsM (ℕ × ℕ)) (fun r _ => r.1 ≤ n ∧ ∀ t, tot ≤ t → t < r.1 → src.Has t)
        (fun _ => True) s := fun {_} => ⟨hle, fun t h1 h2 => absurd h2 (by omega)⟩
    rw [writeiFrom, wp_ite]
    refine ⟨fun hlt => ?_, fun _ => hstop⟩
    rw [wp_bind]
    refine wp_mono wp_true (fun addr s1 _ => ?_) fun _ _ => trivial
    rw [wp_ite]
    refine ⟨fun _ => hstop, fun _ => ?_⟩
    simp only [bread, wp_bind, wp_get, wp_pure]
    have hpos : 0 < BSIZE := by decide
    have hmod := Nat.mod_lt off hpos
    set m := min (n - tot) (BSIZE - off % BSIZE) with hm
    cases hok : (src.copy tot m).2 with
    | true =>
      simp only [if_true, logWrite, wp_bind, wp_modify]
      refine wp_mono (ih (by omega) (by omega)) (fun r s2 h2 => ⟨h2.1, fun t h1 ht => ?_⟩) fun _ => id
      by_cases htm : t < tot + m
      · have hhas := Src.copy_iff.mp hok (t - tot) (by omega)
        rwa [show tot + (t - tot) = t by omega] at hhas
      · exact h2.2 t (by omega) ht
    | false =>
      simp only [Bool.false_eq_true, if_false, poke, wp_bind, wp_modify]
      exact hstop

/-- The contents after a write that touched nothing but what it reports. -/
theorem Wrote.contents_eq (hT : TableInv sb s) (hl : Live s ip i) (hw : Wrote sb s s' ip i src off n tot)
    (hoff : off ≤ (cur sb s i).size.toNat) (hmax : off + n ≤ MAXFILE * BSIZE) (hsize : (cur sb s i).size.toNat ≤ MAXFILE * BSIZE)
    (hin : src.Holds n) (hout : ∀ o < MAXFILE * BSIZE, o < off ∨ off + tot ≤ o → fileByte sb s' i o = fileByte sb s i o) :
    contents sb s' i = overwrite (contents sb s i) off (src.bytes tot) := by
  have hle := hw.le
  have hlen : (src.bytes tot).length = tot := by simp [Src.bytes]
  have hsz := hw.size_eq hT hl hmax
  have hmid : fileSlice sb s' i off tot = src.bytes tot :=
    List.map_congr_left fun t ht => hw.inside hin t (List.mem_range.mp ht)
  rw [overwrite, hlen, contents_take, contents_drop, min_eq_left hoff, ← hmid]
  have hlo : fileSlice sb s' i 0 off = fileSlice sb s i 0 off := fileSlice_congr_bytes fun t ht => hout _ (by omega) (by omega)
  have hhi : fileSlice sb s' i (off + tot) ((cur sb s i).size.toNat - (off + tot)) =
      fileSlice sb s i (off + tot) ((cur sb s i).size.toNat - (off + tot)) :=
    fileSlice_congr_bytes fun t ht => hout _ (by omega) (by omega)
  have hsum : (cur sb s' i).size.toNat = off + tot + ((cur sb s i).size.toNat - (off + tot)) := by
    rw [hsz]
    omega
  rw [contents, hsum, fileSlice_add, fileSlice_add, Nat.zero_add, Nat.zero_add, hlo, hhi]

theorem Wrote.contents_ne (hT : TableInv sb s) (hl : Live s ip i) (hw : Wrote sb s s' ip i src off n tot)
    (hj : j < sb.ninodes) (hji : j ≠ i) (hsize : (cur sb s j).size.toNat ≤ MAXFILE * BSIZE) :
    contents sb s' j = contents sb s j :=
  contents_congr (hw.cur_ne hT hl hj hji) fun o ho => hw.bytes j o (by omega) (.inl hji)

theorem WellMapped.wrote (h : WellMapped sb s ip i) (hw : Wrote sb s s' ip i src off n tot)
    (hoff : off ≤ (cur sb s i).size.toNat) (hmax : off + n ≤ MAXFILE * BSIZE) : WellMapped sb s' ip i := by
  have hsz := hw.size_eq h.tab h.live hmax
  have hle := hw.le
  have hsize := h.size
  refine ⟨h.wf, hw.tab, hw.blk, ?_, by omega, fun o ho => ?_⟩
  · obtain ⟨a, ha⟩ := hw.entry
    unfold Live
    rw [ha]
    exact h.live
  · by_cases hold : o < (cur sb s i).size.toNat
    · exact hw.keep _ (h.dense o hold)
    · exact hw.dense o (by omega) (by omega)

end Write

end Xv6.Fs
