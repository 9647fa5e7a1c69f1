import Xv6.Sanity.FileData
import Xv6.Sanity.InodeTable
import Xv6.Sanity.Mkfs
import Xv6.Sanity.Sys
import Xv6.Spec.SharedWrite

/-! Writes through one `struct file` do not overwrite each other: the file is what the calls wrote, chunk by chunk. -/

namespace Xv6.Fs

open Machine Wp

section Pieces

/-- The bytes of a call. -/
def callBytes (c : (ℕ → Option UInt8) × ℤ) : List UInt8 := (List.range c.2.toNat).map fun t => (c.1 t).getD 0

/-- The bytes of a call, cut every `maxWrite` bytes: the first `j` pieces. -/
def pieces (c : (ℕ → Option UInt8) × ℤ) (j : ℕ) : List (List UInt8) :=
  (List.range j).map fun m => ((callBytes c).drop (maxWrite * m)).take maxWrite

theorem pieces_succ (c : (ℕ → Option UInt8) × ℤ) (j : ℕ) :
    pieces c (j + 1) = pieces c j ++ [((callBytes c).drop (maxWrite * j)).take maxWrite] := by
  simp [pieces, List.range_succ]

theorem pieces_flatten (c : (ℕ → Option UInt8) × ℤ) (j : ℕ) :
    (pieces c j).flatten = (callBytes c).take (maxWrite * j) := by
  induction j with
  | zero => simp [pieces]
  | succ j ih =>
    rw [pieces_succ, List.flatten_append, ih, List.flatten_singleton, Nat.mul_succ, List.take_add]

/-- A call has written its first `i` bytes, in these chunks. -/
def Progress (c : (ℕ → Option UInt8) × ℤ) (i : ℕ) (chunks : List (List UInt8)) : Prop :=
  ∃ j, i = min c.2.toNat (maxWrite * j) ∧ chunks = pieces c j ∧ (j = 0 ∨ maxWrite * (j - 1) < c.2.toNat)

theorem Progress.start (c : (ℕ → Option UInt8) × ℤ) : Progress c 0 [] := ⟨0, by simp, rfl, .inl rfl⟩

/-- The chunk `writei` is called with. -/
def chunk (c : (ℕ → Option UInt8) × ℤ) (i : ℕ) : List UInt8 :=
  (List.range (chunkSize c.2 i)).map fun t => (c.1 (i + t)).getD 0

theorem chunk_length (c : (ℕ → Option UInt8) × ℤ) (i : ℕ) : (chunk c i).length = chunkSize c.2 i := by simp [chunk]

theorem Progress.next {c : (ℕ → Option UInt8) × ℤ} {i : ℕ} {chunks : List (List UInt8)} (h : Progress c i chunks)
    (hi : (i : ℤ) < c.2) : Progress c (i + chunkSize c.2 i) (chunks ++ [chunk c i]) := by
  obtain ⟨j, hij, rfl, -⟩ := h
  have hi' : i = maxWrite * j := by omega
  refine ⟨j + 1, ?_, ?_, .inr (by rw [Nat.add_sub_cancel]; omega)⟩
  · unfold chunkSize
    rw [Nat.mul_succ]
    omega
  · rw [pieces_succ, ← hi']
    congr 2
    refine List.ext_getElem ?_ fun t h1 h2 => ?_
    · rw [chunk_length, chunkSize, List.length_take, List.length_drop, callBytes, List.length_map, List.length_range]
      exact Nat.min_comm _ _
    · simp [chunk, callBytes]

theorem Progress.all {c : (ℕ → Option UInt8) × ℤ} {chunks : List (List UInt8)} (h : Progress c c.2.toNat chunks) :
    chunks = pieces c ((c.2.toNat + maxWrite - 1) / maxWrite) := by
  obtain ⟨j, hij, rfl, hj⟩ := h
  congr 1
  have hmax : 0 < maxWrite := by decide
  symm
  rw [Nat.div_eq_iff hmax]
  rcases hj with rfl | hj
  · omega
  · obtain ⟨m, rfl⟩ : ∃ m, j = m + 1 := ⟨j - 1, by
      rcases j with _ | m
      · simp at hij hj
        omega
      · rfl⟩
    simp only [Nat.add_sub_cancel] at hj
    rw [Nat.mul_succ] at hij
    rw [Nat.succ_mul, Nat.mul_comm m]
    omega

end Pieces

section Invariant

/-- The steps between `ilock` and `iunlock`. -/
def WritePc.Holding : WritePc → Prop
  | .locked _ | .wrote _ _ | .advanced _ _ => True
  | _ => False

/-- Where a call is with its bytes, unless it has failed. -/
def WritePc.Good (c : (ℕ → Option UInt8) × ℤ) (chunks : List (List UInt8)) : WritePc → Prop
  | .idle => chunks = []
  | .top i => Progress c i chunks
  | .begun i | .locked i => (i : ℤ) < c.2 ∧ Progress c i chunks
  | .wrote i r | .advanced i r | .unlocked i r => r = chunkSize c.2 i ∧ Progress c (i + chunkSize c.2 i) chunks
  | .done _ => Progress c c.2.toNat chunks

/-- A call that has failed, or is going to. -/
def WritePc.Failed (c : (ℕ → Option UInt8) × ℤ) : WritePc → Prop
  | .wrote i r | .advanced i r | .unlocked i r => (i : ℤ) < c.2 ∧ r ≠ chunkSize c.2 i
  | .done ret => 0 ≤ c.2 → ret ≠ c.2
  | _ => False

/-- What the calls have written, in the order in which they did: each chunk with its call. -/
abbrev Chunks := List (ℕ × List UInt8)

def Chunks.flat (log : Chunks) : List UInt8 := (log.map Prod.snd).flatten

def Chunks.of (log : Chunks) (k : ℕ) : List (List UInt8) := (log.filter fun x => x.1 = k).map Prod.snd

theorem Chunks.flat_snoc (log : Chunks) (k : ℕ) (bs : List UInt8) :
    Chunks.flat (log ++ [(k, bs)]) = log.flat ++ bs := by simp [Chunks.flat]

theorem Chunks.of_snoc (log : Chunks) (k l : ℕ) (bs : List UInt8) :
    Chunks.of (log ++ [(k, bs)]) l = if k = l then log.of l ++ [bs] else log.of l := by
  unfold Chunks.of
  split_ifs with h <;> simp [h]

variable (sb : Superblock) (f : FileIx) (ip : Ip) (i : ℕ) (script : ℕ → (ℕ → Option UInt8) × ℤ)

/-- The file is what the log says, and its lock is with the one call that is between `ilock` and `iunlock`. -/
structure Shared (σ : SharedSt) (log : Chunks) : Prop where
  inode : (σ.sys.ftable f).ip = ip
  type : (σ.sys.ftable f).type = .inode
  tab : TableInv sb σ.sys.fs
  blk : BlockInv sb σ.sys.fs ∅
  ref : At σ.sys.fs ip i
  used : (cur sb σ.sys.fs i).type ≠ 0
  free : (∀ k, ¬ (σ.pc k).Holding) → (σ.sys.fs.itable ip).locked = false
  held : ∀ k, (σ.pc k).Holding → (σ.sys.fs.itable ip).locked = true ∧ Live σ.sys.fs ip i
  one : ∀ k l, (σ.pc k).Holding → (σ.pc l).Holding → k = l
  size : (cur sb σ.sys.fs i).size.toNat = log.flat.length
  max : log.flat.length ≤ MAXFILE * BSIZE
  bytes : fileSlice sb σ.sys.fs i 0 log.flat.length = log.flat
  off : (∀ k j r, σ.pc k ≠ .wrote j r) → (σ.sys.ftable f).off.toNat = log.flat.length
  behind : ∀ k j r, σ.pc k = .wrote j r → (σ.sys.ftable f).off.toNat + r.toNat = log.flat.length
  good : ∀ k, (σ.pc k).Good (script k) (log.of k)

variable {sb f ip i script} {σ : SharedSt} {log : Chunks} {k : ℕ} {pc : WritePc}

/-- A step of `k` that leaves the lock and the file alone. -/
theorem Shared.quiet (h : Shared sb f ip i script σ log) {tx : ℕ} {logged : List ℕ} {trace : List TxEvent}
    (hold : ¬ (σ.pc k).Holding) (hnew : ¬ pc.Holding) (hgood : pc.Good (script k) (log.of k)) :
    Shared sb f ip i script ⟨{ σ.sys with fs := { σ.sys.fs with tx := tx, logged := logged, trace := trace } },
      Function.update σ.pc k pc⟩ log := by
  have hholding : ∀ l, (Function.update σ.pc k pc l).Holding ↔ (σ.pc l).Holding := by
    intro l
    by_cases hl : l = k
    · subst hl
      simp [hold, hnew]
    · rw [Function.update_of_ne hl]
  have hwrote : ∀ l j r, Function.update σ.pc k pc l = .wrote j r ↔ σ.pc l = .wrote j r := by
    intro l j r
    by_cases hl : l = k
    · subst hl
      rw [Function.update_self]
      exact ⟨fun he => absurd (he ▸ trivial : pc.Holding) hnew, fun he => absurd (he ▸ trivial : (σ.pc l).Holding) hold⟩
    · rw [Function.update_of_ne hl]
  refine ⟨h.inode, h.type, ⟨h.tab.dev, h.tab.inum, h.tab.uniq, h.tab.type⟩, ⟨h.blk.own, h.blk.metaMarked⟩, h.ref, h.used,
    fun hn => h.free fun l => (hholding l).not.mp (hn l), fun l hl => h.held l ((hholding l).mp hl),
    fun l l' hl hl' => h.one l l' ((hholding l).mp hl) ((hholding l').mp hl'), h.size, h.max, h.bytes,
    fun hn => h.off fun l j r => (hwrote l j r).not.mp (hn l j r), fun l j r hl => h.behind l j r ((hwrote l j r).mp hl),
    fun l => ?_⟩
  by_cases hl : l = k
  · subst hl
    simpa using hgood
  · simpa [Function.update_of_ne hl] using h.good l

theorem fileSlice_congr {s s' : State} (hcur : ∀ j, cur sb s' j = cur sb s j) (hdisk : s'.disk = s.disk) (off n : ℕ) :
    fileSlice sb s' i off n = fileSlice sb s i off n := by
  have hown : owner sb s' = owner sb s := by
    unfold owner
    rw [funext hcur, hdisk]
  unfold fileSlice fileByte
  rw [hown, hdisk]

theorem good_update {l : ℕ} {chunks : List (List UInt8)} (h : l ≠ k → (σ.pc l).Good (script l) chunks)
    (hk : l = k → pc.Good (script k) chunks) : (Function.update σ.pc k pc l).Good (script l) chunks := by
  by_cases hl : l = k
  · subst hl
    rw [Function.update_self]
    exact hk rfl
  · rw [Function.update_of_ne hl]
    exact h hl

theorem Shared.lock (hsb : sb.Wf) (h : Shared sb f ip i script σ log) {j : ℕ} (hk : σ.pc k = .begun j)
    (hfree : (σ.sys.fs.itable ip).locked = false) :
    Shared sb f ip i script ⟨{ σ.sys with fs := σ.sys.fs.lock sb ip }, Function.update σ.pc k (.locked j)⟩ log := by
  have hnone : ∀ l, ¬ (σ.pc l).Holding := fun l hl => by
    have := (h.held l hl).1
    rw [hfree] at this
    cases this
  have hcur : ∀ j, cur sb (σ.sys.fs.lock sb ip) j = cur sb σ.sys.fs j := fun j => h.tab.cur_lock h.ref h.used
  have honly : ∀ l, (Function.update σ.pc k (.locked j) l).Holding → l = k := fun l hl => by
    by_contra hne
    rw [Function.update_of_ne hne] at hl
    exact hnone l hl
  refine ⟨h.inode, h.type, h.tab.lock h.ref h.used, h.blk.lock h.tab h.ref h.used hsb, ?_, by rw [hcur]; exact h.used, ?_, ?_,
    fun l l' hl hl' => (honly l hl).trans (honly l' hl').symm, by rw [hcur]; exact h.size, h.max, ?_, ?_, ?_, fun l => ?_⟩
  · exact ((live_lock h.ref).mpr (.inr ⟨rfl, rfl⟩)).at
  · intro hn
    exact absurd (by simp [WritePc.Holding]) (hn k)
  · intro l hl
    refine ⟨?_, (live_lock h.ref).mpr (.inr ⟨rfl, rfl⟩)⟩
    simp [State.lock]
  · rw [fileSlice_congr hcur rfl]
    exact h.bytes
  · refine fun _ => h.off fun l j r hl => hnone l ?_
    rw [hl]
    trivial
  · intro l j r hl
    dsimp only at hl
    have := honly l (by rw [hl]; trivial)
    subst this
    simp at hl
  · refine good_update (fun _ => h.good l) fun hl => ?_
    have := h.good k
    rw [hk] at this
    exact hl ▸ this

theorem Shared.unlock (hsb : sb.Wf) (h : Shared sb f ip i script σ log) {j : ℕ} {r : ℤ} (hk : σ.pc k = .advanced j r) :
    Shared sb f ip i script ⟨{ σ.sys with fs := σ.sys.fs.unlock ip }, Function.update σ.pc k (.unlocked j r)⟩ log := by
  have hholding : (σ.pc k).Holding := by rw [hk]; trivial
  have hnone : ∀ l, ¬ (Function.update σ.pc k (.unlocked j r) l).Holding := fun l hl => by
    by_cases hlk : l = k
    · subst hlk
      simp [WritePc.Holding] at hl
    · rw [Function.update_of_ne hlk] at hl
      exact hlk (h.one l k hl hholding)
  have hcur : ∀ j, cur sb (σ.sys.fs.unlock ip) j = cur sb σ.sys.fs j := fun j => h.tab.cur_unlock h.ref
  refine ⟨h.inode, h.type, h.tab.unlock h.ref, h.blk.unlock h.tab h.ref hsb, ?_, by rw [hcur]; exact h.used, ?_,
    fun l hl => absurd hl (hnone l), fun l l' hl => absurd hl (hnone l), by rw [hcur]; exact h.size, h.max, ?_, ?_, ?_, fun l => ?_⟩
  · exact ((live_unlock h.ref).mpr (h.held k hholding).2).at
  · intro _
    simp [State.unlock]
  · rw [fileSlice_congr hcur rfl]
    exact h.bytes
  · refine fun _ => h.off fun l j' r' hl => ?_
    have := h.one l k (by rw [hl]; trivial) hholding
    subst this
    rw [hk] at hl
    cases hl
  · intro l j' r' hl
    dsimp only at hl
    exact absurd (by rw [hl]; trivial) (hnone l)
  · refine good_update (fun _ => h.good l) fun hl => ?_
    have := h.good k
    rw [hk] at this
    exact hl ▸ this

/-- The update of `f->off`. -/
theorem Shared.advance (h : Shared sb f ip i script σ log) {j : ℕ} {r : ℤ} (hk : σ.pc k = .wrote j r) {ff : File}
    (hip : ff.ip = (σ.sys.ftable f).ip) (htype : ff.type = (σ.sys.ftable f).type) (hoff : ff.off.toNat = log.flat.length) :
    Shared sb f ip i script ⟨{ σ.sys with ftable := Function.update σ.sys.ftable f ff },
      Function.update σ.pc k (.advanced j r)⟩ log := by
  have hholding : (σ.pc k).Holding := by rw [hk]; trivial
  have hiff : ∀ l, (Function.update σ.pc k (.advanced j r) l).Holding ↔ (σ.pc l).Holding := fun l => by
    by_cases hlk : l = k
    · subst hlk
      simp [WritePc.Holding, hk]
    · rw [Function.update_of_ne hlk]
  have hnone : ∀ l j' r', Function.update σ.pc k (.advanced j r) l ≠ .wrote j' r' := fun l j' r' hl => by
    have := h.one l k ((hiff l).mp (by rw [hl]; trivial)) hholding
    subst this
    simp at hl
  refine ⟨?_, ?_, h.tab, h.blk, h.ref, h.used, fun hn => absurd hholding ((hiff k).not.mp (hn k)),
    fun l hl => h.held l ((hiff l).mp hl), fun l l' hl hl' => h.one l l' ((hiff l).mp hl) ((hiff l').mp hl'), h.size, h.max,
    h.bytes, fun _ => ?_, fun l j' r' hl => absurd hl (hnone l j' r'), fun l => ?_⟩
  · simpa using hip.trans h.inode
  · simpa using htype.trans h.type
  · simpa using hoff
  · refine good_update (fun _ => h.good l) fun hl => ?_
    have := h.good k
    rw [hk] at this
    exact hl ▸ this

theorem chunkSize_pos {n : ℤ} {j : ℕ} (h : (j : ℤ) < n) : 0 < chunkSize n j := by
  have : 0 < maxWrite := by decide
  unfold chunkSize
  omega

theorem chunkSize_toNat (n : ℤ) (j : ℕ) : (UInt32.ofNat (chunkSize n j)).toNat = chunkSize n j := by
  refine UInt32.toNat_ofNat_of_lt' ?_
  have : maxWrite < UInt32.size := by decide
  unfold chunkSize
  omega

/-- The bytes the chunk is appended to are those of the file, and the chunk is where the file ended. -/
theorem Wrote.fileSlice_snoc {s s' : State} {c : (ℕ → Option UInt8) × ℤ} {j len : ℕ}
    (hw : Wrote sb s s' ip i ((Src.user c.1).from j) len (chunkSize c.2 j) (chunkSize c.2 j))
    (hmax : len + chunkSize c.2 j ≤ MAXFILE * BSIZE) :
    fileSlice sb s' i 0 (len + chunkSize c.2 j) = fileSlice sb s i 0 len ++ chunk c j := by
  rw [fileSlice_add]
  congr 1
  · refine List.map_congr_left fun o ho => ?_
    have ho := List.mem_range.mp ho
    exact hw.bytes i _ (by omega) (.inr (.inl (by omega)))
  · refine List.map_congr_left fun o ho => ?_
    rw [Nat.zero_add, hw.inside trivial o (List.mem_range.mp ho)]
    rfl

theorem Shared.write (h : Shared sb f ip i script σ log) {j : ℕ} (hk : σ.pc k = .locked j) {s' : State} {len : ℕ}
    (hlen : len = log.flat.length) (hmax : len + chunkSize (script k).2 j ≤ MAXFILE * BSIZE)
    (hw : Wrote sb σ.sys.fs s' ip i ((Src.user (script k).1).from j) len (chunkSize (script k).2 j) (chunkSize (script k).2 j)) :
    Shared sb f ip i script ⟨{ σ.sys with fs := s' }, Function.update σ.pc k (.wrote j (chunkSize (script k).2 j))⟩
      (log ++ [(k, chunk (script k) j)]) := by
  have hholding : (σ.pc k).Holding := by rw [hk]; trivial
  obtain ⟨hlocked, hlive⟩ := h.held k hholding
  obtain ⟨a, ha⟩ := hw.entry
  have hlive' : Live s' ip i := by
    refine ⟨?_, ?_, ?_⟩ <;> rw [ha]
    exacts [hlive.1, hlive.2.1, hlive.2.2]
  have hiff : ∀ l, (Function.update σ.pc k (.wrote j (chunkSize (script k).2 j)) l).Holding ↔ (σ.pc l).Holding := fun l => by
    by_cases hlk : l = k
    · subst hlk
      simp [WritePc.Holding, hk]
    · rw [Function.update_of_ne hlk]
  have hgood := h.good k
  rw [hk] at hgood
  have hpos := chunkSize_pos hgood.1
  have hcur : cur sb s' i = (s'.itable ip).d := hw.tab.cur_live hlive'
  have hcur0 := h.tab.cur_live hlive
  have hflat : (log ++ [(k, chunk (script k) j)]).flat.length = len + chunkSize (script k).2 j := by
    rw [Chunks.flat_snoc, List.length_append, chunk_length, hlen]
  refine ⟨h.inode, h.type, hw.tab, hw.blk, hlive'.at, ?_, fun hn => absurd hholding ((hiff k).not.mp (hn k)), ?_,
    fun l l' hl hl' => h.one l l' ((hiff l).mp hl) ((hiff l').mp hl'), ?_, ?_, ?_, ?_, ?_, fun l => ?_⟩
  · dsimp only
    rw [hcur, ha]
    dsimp only
    rw [← hcur0]
    exact h.used
  · refine fun l hl => ⟨?_, hlive'⟩
    dsimp only
    rw [ha]
    exact hlocked
  · dsimp only
    have hbig : MAXFILE * BSIZE < 2 ^ 32 := by decide
    rw [hflat, hcur, ha]
    dsimp only
    rw [grownSize, ← hcur0, if_pos (by rw [h.size]; omega), UInt32.toNat_ofNat_of_lt']
    exact lt_of_le_of_lt hmax hbig
  · rw [hflat]
    exact hmax
  · dsimp only
    rw [hflat, hw.fileSlice_snoc hmax, hlen, h.bytes, Chunks.flat_snoc]
  · exact fun hn => absurd (by simp) (hn k j (chunkSize (script k).2 j))
  · intro l j' r hl
    dsimp only at hl
    have := h.one l k ((hiff l).mp (by rw [hl]; trivial)) hholding
    subst this
    rw [Function.update_self, WritePc.wrote.injEq] at hl
    obtain ⟨rfl, rfl⟩ := hl
    have hoff := h.off fun l' j' r hl' => by
      have := h.one l' l (by rw [hl']; trivial) hholding
      subst this
      rw [hk] at hl'
      cases hl'
    dsimp only
    rw [hflat, hoff, Int.toNat_natCast, hlen]
  · rw [Chunks.of_snoc]
    refine good_update (fun hl => ?_) fun hl => ?_
    · rw [if_neg (Ne.symm hl)]
      exact h.good l
    · subst hl
      rw [if_pos rfl]
      exact ⟨rfl, hgood.2.next hgood.1⟩

end Invariant

section Steps

variable {sb : Superblock} {f : FileIx} {ip : Ip} {i : ℕ} {script : ℕ → (ℕ → Option UInt8) × ℤ} {σ σ' : SharedSt}
  {log : Chunks} {k l : ℕ}

theorem sharedStep_ok (h : sharedStep sb f script k σ = .ok σ') : ∃ pc sys,
    writeStep sb f (.user (script k).1) (script k).2 (σ.pc k) σ.sys = .ok (pc, sys) ∧
      σ' = ⟨sys, Function.update σ.pc k pc⟩ := by
  unfold sharedStep at h
  split at h
  · cases h
    exact ⟨_, _, ‹_›, rfl⟩
  · cases h
  · cases h

/-- What a step of call `k` does to a state that is as its log says. -/
def StaysShared (sb : Superblock) (f : FileIx) (ip : Ip) (i : ℕ) (script : ℕ → (ℕ → Option UInt8) × ℤ) (σ : SharedSt) (k : ℕ)
    (pc : WritePc) (sys : Sys) : Prop :=
  pc.Failed (script k) ∨ ∃ log, Shared sb f ip i script ⟨sys, Function.update σ.pc k pc⟩ log

theorem writeRet_of_progress {c : (ℕ → Option UInt8) × ℤ} {j : ℕ} {chunks : List (List UInt8)} (h : Progress c j chunks)
    (hj : ¬ (j : ℤ) < c.2) : j = c.2.toNat := by
  obtain ⟨m, hm, -⟩ := h
  omega

theorem Shared.writeStep (hsb : sb.Wf) (h : Shared sb f ip i script σ log) :
    wp (writeStep sb f (.user (script k).1) (script k).2 (σ.pc k)) (StaysShared sb f ip i script σ k) (fun _ => True) σ.sys := by
  have hgood := h.good k
  cases hpc : σ.pc k with
  | idle =>
    rw [hpc] at hgood
    simp only [Fs.writeStep, wp_bind, wp_getFile, wp_ite, wp_pure, h.type]
    refine ⟨fun _ => ?_, fun _ => .inr ⟨log, ?_⟩⟩
    · by_cases hn : 0 ≤ (script k).2
      · refine .inl fun _ hret => ?_
        omega
      · refine .inr ⟨log, h.quiet (by rw [hpc]; exact id) id ?_⟩
        have hzero : (script k).2.toNat = 0 := by omega
        rw [show log.of k = [] from hgood]
        change Progress _ _ _
        rw [hzero]
        exact .start _
    · refine h.quiet (by rw [hpc]; exact id) id ?_
      rw [show log.of k = [] from hgood]
      exact Progress.start _
  | top j =>
    rw [hpc] at hgood
    simp only [Fs.writeStep, wp_bind, wp_ite, wp_liftFs, wp_pure, beginOp, wp_modify]
    refine ⟨fun hj => .inr ⟨log, h.quiet (by rw [hpc]; exact id) id ⟨hj, hgood⟩⟩,
      fun hj => .inr ⟨log, h.quiet (by rw [hpc]; exact id) id ?_⟩⟩
    have := writeRet_of_progress hgood hj
    exact this ▸ hgood
  | begun j =>
    simp only [Fs.writeStep, wp_bind, wp_getFile, wp_liftFs, wp_pure, h.inode]
    cases hlocked : (σ.sys.fs.itable ip).locked with
    | true => exact wp_mono (ilock_hang h.ref.1 hlocked) (fun _ _ hf => hf.elim) fun _ _ => trivial
    | false =>
      refine wp_mono (ilock_spec h.tab h.ref hlocked) (fun _ s' hs => ?_) fun _ _ => trivial
      obtain ⟨-, rfl⟩ := hs
      exact .inr ⟨log, h.lock hsb hpc hlocked⟩
  | locked j =>
    obtain ⟨-, hlive⟩ := h.held k (by rw [hpc]; trivial)
    rw [hpc] at hgood
    have hoff := h.off fun l' j' r hl' => by
      have := h.one l' k (by rw [hl']; trivial) (by rw [hpc]; trivial)
      subst this
      rw [hpc] at hl'
      cases hl'
    simp only [Fs.writeStep, wp_bind, wp_getFile, wp_liftFs, wp_pure, h.inode]
    refine wp_imp (writei_spec hsb h.tab h.blk hlive _ _ _) fun r s' hr => ?_
    rcases hr with ⟨-, rfl, -⟩ | ⟨-, hmax, tot, rfl, hw⟩
    · exact .inl ⟨hgood.1, by omega⟩
    · rw [chunkSize_toNat] at hmax hw
      by_cases htot : tot = chunkSize (script k).2 j
      · subst htot
        exact .inr ⟨_, h.write hpc hoff hmax hw⟩
      · exact .inl ⟨hgood.1, by omega⟩
  | wrote j r =>
    rw [hpc] at hgood
    have hbehind := h.behind k j r hpc
    have hmax := h.max
    have hbig : MAXFILE * BSIZE < 2 ^ 32 := by decide
    simp only [Fs.writeStep, wp_bind, wp_getFile, wp_ite, wp_setFile, wp_pure]
    refine ⟨fun hr => .inr ⟨log, h.advance hpc rfl rfl ?_⟩, fun hr => .inr ⟨log, ?_⟩⟩
    · dsimp only
      rw [UInt32.toNat_add, UInt32.toNat_ofNat_of_lt' (by change _ < 2 ^ 32; omega)]
      omega
    · have hoff : (σ.sys.ftable f).off.toNat = log.flat.length := by omega
      have := h.advance hpc rfl rfl hoff
      rwa [Function.update_eq_self] at this
  | advanced j r =>
    obtain ⟨hlocked, -⟩ := h.held k (by rw [hpc]; trivial)
    simp only [Fs.writeStep, wp_bind, wp_getFile, wp_liftFs, wp_pure, h.inode]
    refine wp_imp (iunlock_spec h.ref.1 hlocked) fun _ s' hs => ?_
    subst hs
    exact .inr ⟨log, h.unlock hsb hpc⟩
  | unlocked j r =>
    rw [hpc] at hgood
    simp only [Fs.writeStep, wp_bind, wp_ite, wp_liftFs, wp_pure, endOp, wp_modify]
    exact ⟨fun hr => absurd hgood.1 hr, fun _ => .inr ⟨log, h.quiet (by rw [hpc]; exact id) id hgood.2⟩⟩
  | done ret => simp only [Fs.writeStep, wp_throw]

/-- A call that fails does not come to return `n`. -/
theorem failed_writeStep (h : (σ.pc k).Failed (script k)) :
    wp (writeStep sb f (.user (script k).1) (script k).2 (σ.pc k)) (fun pc _ => pc.Failed (script k)) (fun _ => True)
      σ.sys := by
  cases hpc : σ.pc k with
  | wrote j r =>
    rw [hpc] at h
    simp only [Fs.writeStep, wp_bind, wp_getFile, wp_ite, wp_setFile, wp_pure]
    exact ⟨fun _ => h, fun _ => h⟩
  | advanced j r =>
    rw [hpc] at h
    simp only [Fs.writeStep, wp_bind, wp_getFile, wp_liftFs, wp_pure]
    exact wp_mono wp_true (fun _ _ _ => h) fun _ => id
  | unlocked j r =>
    rw [hpc] at h
    obtain ⟨hj, hr⟩ := h
    simp only [Fs.writeStep, wp_bind, wp_ite, wp_liftFs, wp_pure, endOp, wp_modify]
    refine ⟨fun _ h0 hret => ?_, fun hn => absurd hr hn⟩
    unfold writeRet at hret
    split_ifs at hret <;> omega
  | done ret => simp only [Fs.writeStep, wp_throw]
  | _ =>
    rw [hpc] at h
    exact h.elim

/-- The invariant: a call has failed, or the file is what the calls wrote. -/
def SharedInv (sb : Superblock) (f : FileIx) (ip : Ip) (i : ℕ) (script : ℕ → (ℕ → Option UInt8) × ℤ) (σ : SharedSt) :
    Prop :=
  (∃ k, (σ.pc k).Failed (script k)) ∨ ∃ log, Shared sb f ip i script σ log

theorem SharedInv.step (hsb : sb.Wf) (h : SharedInv sb f ip i script σ) (hs : sharedStep sb f script k σ = .ok σ') :
    SharedInv sb f ip i script σ' := by
  obtain ⟨pc, sys, hw, rfl⟩ := sharedStep_ok hs
  rcases h with ⟨l, hl⟩ | ⟨log, h⟩
  · refine .inl ⟨l, ?_⟩
    by_cases hlk : l = k
    · subst hlk
      simpa only [Function.update_self] using wp_ok (failed_writeStep hl) hw
    · simpa only [Function.update_of_ne hlk] using hl
  · rcases wp_ok (h.writeStep hsb) hw with hf | hlog
    · exact .inl ⟨k, by simpa only [Function.update_self] using hf⟩
    · exact .inr hlog

end Steps

/-- A file without bytes that was opened and not read or written yet. -/
structure OpenEmpty (sb : Superblock) (sys : Sys) (f : FileIx) (ip : Ip) (i : ℕ) : Prop where
  inode : (sys.ftable f).ip = ip
  type : (sys.ftable f).type = .inode
  off : (sys.ftable f).off = 0
  tab : TableInv sb sys.fs
  blk : BlockInv sb sys.fs ∅
  ref : At sys.fs ip i
  used : (cur sb sys.fs i).type ≠ 0
  size : (cur sb sys.fs i).size = 0
  unlocked : (sys.fs.itable ip).locked = false

theorem OpenEmpty.shared {sb : Superblock} {sys : Sys} {f : FileIx} {ip : Ip} {i : ℕ} (h : OpenEmpty sb sys f ip i)
    (script : ℕ → (ℕ → Option UInt8) × ℤ) : Shared sb f ip i script ⟨sys, fun _ => .idle⟩ [] where
  inode := h.inode
  type := h.type
  tab := h.tab
  blk := h.blk
  ref := h.ref
  used := h.used
  free := fun _ => h.unlocked
  held := fun _ hk => hk.elim
  one := fun _ _ hk => hk.elim
  size := by rw [h.size]; rfl
  max := Nat.zero_le _
  bytes := rfl
  off := fun _ => by rw [h.off]; rfl
  behind := fun _ _ _ hk => by cases hk
  good := fun _ => rfl

/-- The file is the chunks of the calls, put together in the order of `log`: for each call that was made, its bytes cut
every `maxWrite` bytes. -/
structure Concatenation (sb : Superblock) (f : FileIx) (i : ℕ) (script : ℕ → (ℕ → Option UInt8) × ℤ) (σ : SharedSt)
    (log : Chunks) : Prop where
  size : (cur sb σ.sys.fs i).size.toNat = log.flat.length
  bytes : fileSlice sb σ.sys.fs i 0 log.flat.length = log.flat
  chunks : ∀ k, σ.pc k ≠ .idle →
    log.of k = pieces (script k) (((script k).2.toNat + maxWrite - 1) / maxWrite) ∧
      (log.of k).flatten = callBytes (script k)
  others : ∀ k, σ.pc k = .idle → log.of k = []
  off : (σ.sys.ftable f).off.toNat = log.flat.length

theorem shared_writes (sb : Superblock) (hsb : sb.Wf) (sys : Sys) (f : FileIx) (ip : Ip) (i : ℕ)
    (h0 : OpenEmpty sb sys f ip i) (script : ℕ → (ℕ → Option UInt8) × ℤ) (ks : List ℕ) (σ : SharedSt)
    (hrun : Run (sharedStep sb f script) Free ⟨sys, fun _ => .idle⟩ ks σ)
    (hall : ∀ k, σ.pc k = .idle ∨ 0 ≤ (script k).2 ∧ σ.pc k = .done (script k).2) :
    ∃ log, Concatenation sb f i script σ log := by
  have hinv : SharedInv sb f ip i script σ := hrun.inv (I := SharedInv sb f ip i script) (.inr ⟨[], h0.shared script⟩)
    fun t k u ht _ hs => ht.step hsb hs
  rcases hinv with ⟨k, hk⟩ | ⟨log, h⟩
  · rcases hall k with hidle | ⟨hn, hdone⟩
    · rw [hidle] at hk
      exact hk.elim
    · rw [hdone] at hk
      exact absurd rfl (hk hn)
  · have hoff : ∀ k j r, σ.pc k ≠ .wrote j r := fun k j r hk => by
      rcases hall k with hidle | ⟨-, hdone⟩
      · rw [hidle] at hk
        cases hk
      · rw [hdone] at hk
        cases hk
    refine ⟨log, h.size, h.bytes, fun k hk => ?_, fun k hk => ?_, h.off hoff⟩
    · have hgood := h.good k
      rw [((hall k).resolve_left hk).2] at hgood
      have hpieces : log.of k = _ := Progress.all hgood
      refine ⟨hpieces, ?_⟩
      obtain ⟨j, hj, heq, -⟩ := hgood
      rw [heq, pieces_flatten]
      refine List.take_of_length_le ?_
      rw [callBytes, List.length_map, List.length_range]
      omega
    · have hgood := h.good k
      rwa [hk] at hgood

/-- A new file, opened for writing. -/
def newFile : Sys where
  fs := ((State.boot (mkfs smallSb)).take smallSb 2 T_FILE).got 0 2
  ftable := fun _ => ⟨.inode, 2, false, true, 0, 0, 0⟩
  procs := fun _ => ⟨none, fun _ => none⟩

theorem newFile_open : OpenEmpty smallSb newFile 0 0 2 := by
  have hT : TableInv smallSb _ := boot_tableInv (mkfs smallSb)
  have hfree : (dino smallSb (.boot (mkfs smallSb)) 2).type = 0 := by decide +kernel
  have hT1 : TableInv smallSb ((State.boot (mkfs smallSb)).take smallSb 2 T_FILE) := hT.take hfree
  have ha : Avail ((State.boot (mkfs smallSb)).take smallSb 2 T_FILE) 0 2 := .inr ⟨rfl, fun jp hj => Nat.lt_irrefl 0 hj.1⟩
  have hcur : cur smallSb newFile.fs 2 = { Dinode.zero with type := T_FILE } := by
    rw [newFile, hT1.cur_got ha (by decide), hT.cur_take hfree, if_pos rfl]
  refine ⟨rfl, rfl, rfl, hT1.got ha (by decide), ?_, got_at ha, ?_, ?_, rfl⟩
  · exact ((mkfs_blockInv smallSb_fits).take hT hfree smallSb_fits.wf (by decide)).got hT1 ha (by decide) smallSb_fits.wf
  · rw [hcur]
    decide
  · rw [hcur]
    rfl

/-- Two calls of 5 and 3 bytes. -/
def twoWriters (k : ℕ) : (ℕ → Option UInt8) × ℤ := if k = 0 then (fun _ => some 7, 5) else (fun _ => some 9, 3)

/-- The second call is between its steps when the first one has the inode. -/
def interleaved : List ℕ := [0, 1, 0, 1, 0, 0, 0, 0, 1, 1, 1, 1, 0, 0, 1, 1]

theorem interleaved_runs : (execIf (sharedStep smallSb 0 twoWriters) (fun _ _ => true) interleaved
    ⟨newFile, fun _ => .idle⟩).Sat fun σ => σ.pc 0 = .done 5 ∧ σ.pc 1 = .done 3 := by decide +kernel

theorem idle_of_run {sb : Superblock} {f : FileIx} {script : ℕ → (ℕ → Option UInt8) × ℤ} {σ0 σ : SharedSt} {ks : List ℕ}
    (h : Run (sharedStep sb f script) Free σ0 ks σ) {k : ℕ} (hk : k ∉ ks) : σ.pc k = σ0.pc k := by
  have hrun := h.labels (Q := fun _ a => a ≠ k) fun a ha _ => ne_of_mem_of_not_mem ha hk
  refine hrun.inv (I := fun σ => σ.pc k = σ0.pc k) rfl fun t a u ht ha hs => ?_
  obtain ⟨pc, sys, -, rfl⟩ := sharedStep_ok hs
  exact (Function.update_of_ne (Ne.symm ha) _ _).trans ht

theorem shared_writes_interleaved : ∃ σ, Run (sharedStep smallSb 0 twoWriters) Free ⟨newFile, fun _ => .idle⟩ interleaved σ ∧
    σ.pc 0 = .done 5 ∧ σ.pc 1 = .done 3 ∧ ∃ log, Concatenation smallSb 0 2 twoWriters σ log := by
  obtain ⟨σ, hσ, h0, h1⟩ := interleaved_runs.ok
  have hrun := (run_of_execIf hσ).free
  refine ⟨σ, hrun, h0, h1, shared_writes smallSb smallSb_fits.wf newFile 0 0 2 newFile_open twoWriters interleaved σ hrun
    fun k => ?_⟩
  by_cases hk : k ∈ interleaved
  · have : k = 0 ∨ k = 1 := by
      simp only [interleaved, List.mem_cons, List.not_mem_nil, or_false] at hk
      omega
    rcases this with rfl | rfl
    · exact .inr ⟨by decide, h0⟩
    · exact .inr ⟨by decide, h1⟩
  · exact .inl (idle_of_run hrun hk)

end Xv6.Fs
