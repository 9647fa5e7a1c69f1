import Mathlib.Data.List.TakeWhile
import Xv6.Sanity.InodeTable

/-! File contents. `fileByte i o` is byte `o` of file `i`, read through the slots,
so adding blocks to a file changes no byte; `writei` and `readi` are specified by it. -/

namespace Xv6.Fs

open Bytes Wp Ownership

/-- Byte `o` of file `i`; where no block is, zero. -/
def fileByte (sb : Superblock) (s : State) (i o : ℕ) : UInt8 :=
  match owner sb s (fileSlot i (o / BSIZE)) with
  | some b => (s.disk b).get (o % BSIZE)
  | none => 0

section FileSlot

variable {i j bn bn' : ℕ}

theorem fileSlot_inum : (fileSlot i bn).inum = i := by
  unfold fileSlot
  split_ifs <;> rfl

theorem fileSlot_data : (fileSlot i bn).Data := by
  unfold fileSlot
  split_ifs with h
  · intro hlast
    have hval := congrArg Fin.val hlast
    have hmod : (Fin.ofNat (NDIRECT + 1) bn).val = bn := Nat.mod_eq_of_lt (by omega)
    rw [hmod, Fin.val_last] at hval
    omega
  · trivial

theorem fileSlot_inj (hbn : bn < MAXFILE) (hbn' : bn' < MAXFILE) (h : fileSlot i bn = fileSlot j bn') :
    i = j ∧ bn = bn' := by
  have hij : i = j := by
    have hinum := congrArg Slot.inum h
    rwa [fileSlot_inum, fileSlot_inum] at hinum
  subst hij
  refine ⟨rfl, ?_⟩
  have hmax : MAXFILE = NDIRECT + NINDIRECT := rfl
  unfold fileSlot at h
  split_ifs at h with h1 h2 h2
  · have hval := congrArg Fin.val (Slot.direct.inj h).2
    have hm1 : (Fin.ofNat (NDIRECT + 1) bn).val = bn := Nat.mod_eq_of_lt (by omega)
    have hm2 : (Fin.ofNat (NDIRECT + 1) bn').val = bn' := Nat.mod_eq_of_lt (by omega)
    rwa [hm1, hm2] at hval
  · have hval := congrArg Fin.val (Slot.entry.inj h).2
    have hm1 : (Fin.ofNat NINDIRECT (bn - NDIRECT)).val = bn - NDIRECT := Nat.mod_eq_of_lt (by omega)
    have hm2 : (Fin.ofNat NINDIRECT (bn' - NDIRECT)).val = bn' - NDIRECT := Nat.mod_eq_of_lt (by omega)
    rw [hm1, hm2] at hval
    omega

end FileSlot

section Bytes

variable {sb : Superblock} {s s' s'' : State} {ip : Ip} {i j o : ℕ}

theorem fileByte_congr (hown : owner sb s' (fileSlot i (o / BSIZE)) = owner sb s (fileSlot i (o / BSIZE)))
    (hdisk : ∀ b, owner sb s (fileSlot i (o / BSIZE)) = some b → s'.disk b = s.disk b) :
    fileByte sb s' i o = fileByte sb s i o := by
  unfold fileByte
  rw [hown]
  cases hb : owner sb s (fileSlot i (o / BSIZE)) with
  | none => rfl
  | some b => simp only [hdisk b hb]

/-- New blocks are zero, as were the bytes that had no block. -/
theorem Extends.fileByte (h : Extends sb s s' ip i) : fileByte sb s' j o = fileByte sb s j o := by
  unfold Fs.fileByte
  cases hb : owner sb s (fileSlot j (o / BSIZE)) with
  | some b => simp only [h.keep _ b hb, h.data _ b hb fileSlot_data]
  | none =>
    cases hb' : owner sb s' (fileSlot j (o / BSIZE)) with
    | none => rfl
    | some b => simp only [(h.fresh _ b hb hb').2 fileSlot_data, ByteVec.get_zero]

/-- From `s` to `s'` inode `i`, in entry `ip`, got blocks, and bytes from `off` on,
`len` at most, were written; nothing else happened. -/
structure Written (sb : Superblock) (s s' : State) (ip : Ip) (i off len : ℕ) : Prop where
  tab : TableInv sb s'
  blk : BlockInv sb s' ∅
  table : ∀ jp, jp ≠ ip → s'.itable jp = s.itable jp
  entry : ∃ a, s'.itable ip = { s.itable ip with d := { (s.itable ip).d with addrs := a } }
  dino : ∀ j < sb.ninodes, dino sb s' j = dino sb s j
  keep : ∀ x, owner sb s x ≠ none → owner sb s' x ≠ none
  other : ∀ x, x.inum ≠ i → owner sb s' x = owner sb s x
  bytes : ∀ j o, o < MAXFILE * BSIZE → (j ≠ i ∨ o < off ∨ off + len ≤ o) →
    Fs.fileByte sb s' j o = Fs.fileByte sb s j o
  aux : s'.aux = s.aux

theorem Grown.written (h : Grown sb s s' ip i) (off len : ℕ) : Written sb s s' ip i off len where
  tab := h.tab
  blk := h.blk
  table := h.ext.table
  entry := h.ext.entry
  dino := h.ext.dino
  keep := fun x hx => by
    obtain ⟨b, hb⟩ := Option.ne_none_iff_exists'.mp hx
    rw [h.ext.keep x b hb]
    exact Option.some_ne_none b
  other := fun x hx => by
    cases hb : owner sb s x with
    | some b => exact h.ext.keep x b hb
    | none =>
      cases hb' : owner sb s' x with
      | none => rfl
      | some b => exact absurd (h.ext.fresh x b hb hb').1 hx
  bytes := fun _ _ _ _ => h.ext.fileByte
  aux := h.ext.aux

theorem Written.trans {off len off1 len1 off2 len2 : ℕ} (h : Written sb s s' ip i off1 len1)
    (h' : Written sb s' s'' ip i off2 len2) (h1 : off ≤ off1) (h2 : off ≤ off2) (h3 : off1 + len1 ≤ off + len)
    (h4 : off2 + len2 ≤ off + len) : Written sb s s'' ip i off len where
  tab := h'.tab
  blk := h'.blk
  table := fun jp hj => (h'.table jp hj).trans (h.table jp hj)
  entry := by
    obtain ⟨a, ha⟩ := h.entry
    obtain ⟨a', ha'⟩ := h'.entry
    exact ⟨a', by rw [ha', ha]⟩
  dino := fun j hj => (h'.dino j hj).trans (h.dino j hj)
  keep := fun x hx => h'.keep x (h.keep x hx)
  other := fun x hx => (h'.other x hx).trans (h.other x hx)
  bytes := fun j o ho hr => (h'.bytes j o ho (by omega)).trans (h.bytes j o ho (by omega))
  aux := h'.aux.trans h.aux

theorem Written.live {off len : ℕ} (h : Written sb s s' ip i off len) (hl : Live s ip i) : Live s' ip i := by
  obtain ⟨a, ha⟩ := h.entry
  unfold Live
  rw [ha]
  exact hl

/-- New data in the block of a file, logged or not. -/
structure DataWrite (s s' : State) (b : ℕ) (d : Block) : Prop where
  disk : s'.disk = Function.update s.disk b d
  itable : s'.itable = s.itable
  aux : s'.aux = s.aux

section DataWrite

variable {b : ℕ} {d : Block} {x : Slot} (h : DataWrite s s' b d) (hB : BlockInv sb s ∅)
  (hx : Fs.owner sb s x = some b)

include h hB hx

theorem DataWrite.dino (hsb : sb.Wf) (hj : j < sb.ninodes) : Fs.dino sb s' j = dino sb s j := by
  have hlt := iblock_lt hsb hj
  have hge := (hB.own.owned hx).1.1
  have hbm : sb.bmapstart ≤ sb.datastart := bmapstart_le_datastart
  exact dino_congr (by rw [h.disk, Function.update_of_ne (by omega)])

theorem DataWrite.marked {c : ℕ} (hc : c < sb.size) : marked sb s' c = marked sb s c := by
  have hlt := bblock_lt hc
  have hge := (hB.own.owned hx).1.1
  exact marked_congr (by rw [h.disk, Function.update_of_ne (by omega)])

theorem DataWrite.cur (hsb : sb.Wf) (hj : j < sb.ninodes) : cur sb s' j = cur sb s j :=
  cur_congr h.itable (h.dino hB hx hsb hj)

/-- Contents are not in indirect blocks, so the slots stay. -/
theorem DataWrite.owner (hsb : sb.Wf) (hd : x.Data) (y : Slot) : Fs.owner sb s' y = Fs.owner sb s y := by
  refine slotAddr_congr (fun j hj => by rw [h.cur hB hx hsb hj]; exact ⟨rfl, rfl⟩) (fun j hj ht hind => ?_) y
  rw [h.disk]
  refine Function.update_of_ne (fun he => ?_) _ _
  have hown := indirect_owned hj ht hind
  rw [he] at hown
  have hxy := hB.own.inj hx hown
  subst hxy
  exact hd rfl

theorem DataWrite.tab (hsb : sb.Wf) (hT : TableInv sb s) : TableInv sb s' :=
  hT.of_disk h.itable fun j hj => by rw [h.dino hB hx hsb hj]

theorem DataWrite.blk (hsb : sb.Wf) (hd : x.Data) : BlockInv sb s' ∅ where
  own := hB.own.congr (h.owner hB hx hsb hd) fun c hc => h.marked hB hx hc.2
  metaMarked := fun c hc => by
    have hsize := hsb.size
    rw [h.marked hB hx (by omega)]
    exact hB.metaMarked c hc

end DataWrite

/-- Splicing bytes into block `bn` of file `i` writes these bytes of the file. -/
theorem DataWrite.written (hsb : sb.Wf) (hT : TableInv sb s) (hB : BlockInv sb s ∅) {b bn o : ℕ} {bs : List UInt8}
    (h : DataWrite s s' b ((s.disk b).splice o bs)) (hbn : bn < MAXFILE)
    (hx : Fs.owner sb s (fileSlot i bn) = some b) (ho : o + bs.length ≤ BSIZE) (p : Ip) :
    Written sb s s' p i (bn * BSIZE + o) bs.length ∧
      ∀ t < bs.length, fileByte sb s' i (bn * BSIZE + o + t) = bs.getD t 0 := by
  have hown := h.owner hB hx hsb fileSlot_data
  have hpos : 0 < BSIZE := by decide
  refine ⟨⟨h.tab hB hx hsb hT, h.blk hB hx hsb fileSlot_data, fun jp _ => by rw [h.itable],
    ⟨_, by rw [h.itable]⟩, fun j hj => h.dino hB hx hsb hj, fun x hx => by rwa [hown],
    fun x _ => hown x, fun j o' ho' hr => ?_, h.aux⟩, fun t ht => ?_⟩
  · unfold fileByte
    rw [hown]
    cases hb : Fs.owner sb s (fileSlot j (o' / BSIZE)) with
    | none => rfl
    | some c =>
      simp only [h.disk]
      by_cases hcb : c = b
      · -- the same block: the byte lies outside of what is spliced in
        subst hcb
        obtain ⟨rfl, hdiv⟩ := fileSlot_inj (Nat.div_lt_of_lt_mul (by rw [Nat.mul_comm]; exact ho')) hbn
          (hB.own.inj hb hx)
        rw [Function.update_self]
        have hmod := Nat.div_add_mod o' BSIZE
        rw [hdiv, Nat.mul_comm] at hmod
        exact ByteVec.get_splice_outside _ _ _ _ (by omega)
      · rw [Function.update_of_ne hcb]
  · have hdiv : (bn * BSIZE + o + t) / BSIZE = bn := by
      rw [Nat.add_assoc, Nat.mul_comm, Nat.mul_add_div hpos, Nat.div_eq_of_lt (by omega), Nat.add_zero]
    have hmod : (bn * BSIZE + o + t) % BSIZE = o + t := by
      rw [Nat.add_assoc, Nat.mul_comm, Nat.mul_add_mod, Nat.mod_eq_of_lt (by omega)]
    unfold fileByte
    rw [hdiv, hown, hx, hmod]
    simp only [h.disk, Function.update_self]
    exact ByteVec.get_splice_inside _ _ _ _ ht ho

end Bytes

section Copy

/-- Byte `t` of the source. -/
def Src.byte : Src → ℕ → UInt8
  | .kernel bytes, t => bytes.getD t 0
  | .user mem, t => (mem t).getD 0

/-- The source has `n` bytes to copy, if it is kernel memory. -/
def Src.Holds (n : ℕ) : Src → Prop
  | .kernel bytes => bytes.length = n
  | .user _ => True

def Src.Kernel : Src → Prop
  | .kernel _ => True
  | .user _ => False

/-- Byte `t` can be read. -/
def Src.Has (t : ℕ) : Src → Prop
  | .kernel _ => True
  | .user mem => (mem t).isSome = true

/-- A copy that the loop of `writei` comes to, from byte `tot` and offset `off` on, copies nothing if it fails. -/
def Src.Clean (src : Src) (n tot off : ℕ) : Prop := ∀ t m, tot ≤ t → t + m ≤ n → (∀ k, tot ≤ k → k < t → src.Has k) →
  (t = tot ∨ (off + (t - tot)) % BSIZE = 0) → (off + (t - tot)) % BSIZE + m ≤ BSIZE → (src.copy t m).2 = false →
  (src.copy t m).1 = []

/-- A copy succeeds if and only if all of it can be read. -/
theorem Src.copy_iff {src : Src} {t m : ℕ} : (src.copy t m).2 = true ↔ ∀ k < m, src.Has (t + k) := by
  cases src with
  | kernel bytes => exact ⟨fun _ _ _ => trivial, fun _ => rfl⟩
  | user mem => simp [Src.copy, Src.Has]

theorem Src.copy_length (src : Src) (t m : ℕ) : (src.copy t m).1.length ≤ m := by
  cases src with
  | kernel bytes =>
    rw [Src.copy, List.length_take]
    exact min_le_left _ _
  | user mem =>
    simp only [Src.copy, List.length_map]
    refine (List.takeWhile_sublist _).length_le.trans ?_
    rw [List.length_map, List.length_range]

theorem Src.copy_kernel {src : Src} (h : src.Kernel) (t m : ℕ) : (src.copy t m).2 = true := by
  cases src with
  | kernel bytes => rfl
  | user mem => exact h.elim

theorem Src.clean_kernel (bytes : List UInt8) (n tot off : ℕ) : (Src.kernel bytes).Clean n tot off :=
  fun _ _ _ _ _ _ _ hno => by cases hno

/-- After a pass that ends at the end of a block. -/
theorem Src.Clean.step {src : Src} {n tot off m : ℕ} (h : src.Clean n tot off) (hok : (src.copy tot m).2 = true)
    (hm : tot + m = n ∨ (off + m) % BSIZE = 0) : src.Clean n (tot + m) (off + m) := by
  intro t k ht hk hhas hedge hfit hno
  rw [show off + m + (t - (tot + m)) = off + (t - tot) by omega] at hedge hfit
  refine h t k (by omega) hk (fun l h1 h2 => ?_) (.inr ?_) hfit hno
  · by_cases hl : l < tot + m
    · have := Src.copy_iff.mp hok (l - tot) (by omega)
      rwa [show tot + (l - tot) = l by omega] at this
    · exact hhas l (by omega) h2
  rcases hedge with rfl | hedge
  · rcases hm with hm | hm
    · obtain rfl : k = 0 := by omega
      rw [Src.copy_iff.mpr fun l hl => absurd hl (Nat.not_lt_zero l)] at hno
      cases hno
    · rwa [show off + (tot + m - tot) = off + m by omega]
  · exact hedge

/-- A pass goes to the end of the block or to the end of the source. -/
theorem pass_edge {n tot off : ℕ} (hlt : tot ≤ n) : tot + min (n - tot) (BSIZE - off % BSIZE) = n ∨
    (off + min (n - tot) (BSIZE - off % BSIZE)) % BSIZE = 0 := by
  have hmod := Nat.mod_lt off (show 0 < BSIZE by decide)
  have hoff := Nat.div_add_mod off BSIZE
  rcases min_choice (n - tot) (BSIZE - off % BSIZE) with hmin | hmin
  · exact .inl (by omega)
  · refine .inr ?_
    rw [hmin, show off + (BSIZE - off % BSIZE) = BSIZE * (off / BSIZE + 1) by rw [Nat.mul_add, Nat.mul_one]; omega,
      Nat.mul_mod_right]

/-- A copy that succeeds copies the bytes of the source. -/
theorem Src.copy_ok {src : Src} {n t m : ℕ} (h : src.Holds n) (hm : t + m ≤ n) (hok : (src.copy t m).2 = true) :
    (src.copy t m).1 = (List.range m).map fun k => src.byte (t + k) := by
  cases src with
  | kernel bytes =>
    have hlen : bytes.length = n := h
    apply List.ext_getElem
    · simp only [Src.copy, List.length_take, List.length_drop, List.length_map, List.length_range]
      omega
    · intro k h1 h2
      have hk : k < m := by simpa using h2
      simp only [Src.copy, Src.byte, List.getElem_take, List.getElem_drop, List.getElem_map, List.getElem_range,
        List.getD_eq_getElem?_getD]
      rw [List.getElem?_eq_getElem (by omega)]
      rfl
  | user mem =>
    have hall : ∀ o ∈ (List.range m).map fun k => mem (t + k), Option.isSome o = true := List.all_eq_true.mp hok
    simp only [Src.copy, Src.byte, List.takeWhile_eq_self_iff.mpr hall, List.map_map]
    rfl

end Copy

/-- A byte of the same block. -/
theorem div_within {off t : ℕ} (h : off % BSIZE + t < BSIZE) : (off + t) / BSIZE = off / BSIZE := by
  have hpos : 0 < BSIZE := by decide
  have ht : t % BSIZE = t := Nat.mod_eq_of_lt (by omega)
  rw [Nat.add_div hpos, ht, if_neg (by omega), Nat.div_eq_of_lt (by omega : t < BSIZE), Nat.add_zero]

section Writei

variable {sb : Superblock} {s : State} {ip : Ip} {i : ℕ} {src : Src} {n : ℕ}

/-- What the loop of `writei` has done when it goes from `tot` and `off` to `tot'` and `off'`. -/
structure LoopWrote (sb : Superblock) (s s' : State) (ip : Ip) (i : ℕ) (src : Src) (n tot off tot' off' : ℕ) : Prop where
  ge : tot ≤ tot'
  le : tot' ≤ n
  adv : off' = off + (tot' - tot)
  written : Written sb s s' ip i off (n - tot)
  inside : src.Holds n → ∀ t, tot ≤ t → t < tot' → fileByte sb s' i (off + (t - tot)) = src.byte t
  dense : ∀ o, off ≤ o → o < off' → owner sb s' (fileSlot i (o / BSIZE)) ≠ none
  all : src.Kernel → (∀ o, off ≤ o → o < off + (n - tot) → owner sb s (fileSlot i (o / BSIZE)) ≠ none) → tot' = n
  exact : src.Clean n tot off → Written sb s s' ip i off (tot' - tot)
  single : src.Kernel → off % BSIZE + (n - tot) ≤ BSIZE → tot' = tot ∨ tot' = n

theorem LoopWrote.stop {s' : State} {tot off : ℕ} (hle : tot ≤ n) (h : Written sb s s' ip i off (n - tot))
    (hexact : src.Clean n tot off → Written sb s s' ip i off 0)
    (hall : src.Kernel → (∀ o, off ≤ o → o < off + (n - tot) → owner sb s (fileSlot i (o / BSIZE)) ≠ none) →
      tot = n) : LoopWrote sb s s' ip i src n tot off tot off where
  ge := le_rfl
  le := hle
  adv := by omega
  written := h
  inside := fun _ t h1 h2 => by omega
  dense := fun o h1 h2 => by omega
  all := hall
  exact := fun hc => by
    rw [Nat.sub_self]
    exact hexact hc
  single := fun _ _ => Or.inl rfl

/-- One pass that wrote `m` bytes, all in one block, and then the rest. -/
theorem LoopWrote.step {s1 s2 : State} {tot off m tot' off' : ℕ} (hm : 0 < m) (hmn : tot + m ≤ n)
    (hfit : off % BSIZE + (n - tot) ≤ BSIZE → tot + m = n) (hok : (src.copy tot m).2 = true)
    (hedge : tot + m = n ∨ (off + m) % BSIZE = 0)
    (hw : Written sb s s1 ip i off m) (hin : src.Holds n → ∀ t < m, fileByte sb s1 i (off + t) = src.byte (tot + t))
    (hblk : ∀ t < m, owner sb s1 (fileSlot i ((off + t) / BSIZE)) ≠ none) (hmax : off + (n - tot) ≤ MAXFILE * BSIZE)
    (h : LoopWrote sb s1 s2 ip i src n (tot + m) (off + m) tot' off') :
    LoopWrote sb s s2 ip i src n tot off tot' off' where
  ge := by
    have := h.ge
    omega
  le := h.le
  adv := by
    have := h.ge
    have := h.adv
    omega
  written := hw.trans h.written le_rfl (by omega) (by omega) (by omega)
  inside := fun hs t h1 h2 => by
    by_cases ht : t < tot + m
    · have hb := hin hs (t - tot) (by omega)
      rw [show tot + (t - tot) = t by omega] at hb
      rw [← hb]
      exact h.written.bytes i _ (by omega) (by omega)
    · have hb := h.inside hs t (by omega) h2
      rwa [show off + m + (t - (tot + m)) = off + (t - tot) by omega] at hb
  dense := fun o h1 h2 => by
    by_cases ho : o < off + m
    · have hb := hblk (o - off) (by omega)
      rw [show off + (o - off) = o by omega] at hb
      exact h.written.keep _ hb
    · exact h.dense o (by omega) h2
  all := fun hk hown => h.all hk fun o h1 h2 => hw.keep _ (hown o (by omega) (by omega))
  exact := fun hc => by
    have := h.ge
    exact hw.trans (h.exact (hc.step hok hedge)) le_rfl (by omega) (by omega) (by omega)
  single := fun _ hone => by
    have := hfit hone
    have := h.ge
    have := h.le
    omega

theorem writeiFrom_spec (hsb : sb.Wf) (hT : TableInv sb s) (hB : BlockInv sb s ∅) (hl : Live s ip i) (src : Src)
    (k : ℕ) {tot off : ℕ} (hle : tot ≤ n) (hk : n - tot ≤ k) (hmax : off + (n - tot) ≤ MAXFILE * BSIZE) :
    wp (writeiFrom sb ip src n k tot off) (fun r s' => LoopWrote sb s s' ip i src n tot off r.1 r.2)
      (fun _ => False) s := by
  have hrefl : Grown sb s s ip i := ⟨hT, hB, .refl⟩
  induction k generalizing s tot off with
  | zero =>
    exact .stop hle (hrefl.written _ _) (fun _ => hrefl.written _ _) fun _ _ => by omega
  | succ k ih =>
    rw [writeiFrom, wp_ite]
    refine ⟨fun hlt => ?_, fun hge => .stop hle (hrefl.written _ _) (fun _ => hrefl.written _ _) fun _ _ => by omega⟩
    have hpos : 0 < BSIZE := by decide
    have hbn : off / BSIZE < MAXFILE := Nat.div_lt_of_lt_mul (by rw [Nat.mul_comm]; omega)
    rw [wp_bind]
    refine wp_mono (bmap_spec hsb hT hB hl hbn) (fun r s1 h1 => ?_) fun _ he => he
    obtain ⟨hg, hown, hthere⟩ := h1
    rw [wp_ite]
    refine ⟨fun hz => ?_, fun hnz => ?_⟩
    · -- the disk is full: this block was not there before
      refine .stop hle (hg.written _ _) (fun _ => hg.written _ _) fun _ hall => ?_
      exact absurd hz (hthere (hall off le_rfl (by omega))).2
    · have hslot := hown hnz
      have hl1 : Live s1 ip i := hg.ext.live.mpr hl
      have hoff := Nat.div_add_mod off BSIZE
      have hmod := Nat.mod_lt off hpos
      simp only [bread, wp_bind, wp_get, wp_pure]
      set m := min (n - tot) (BSIZE - off % BSIZE) with hm
      have hmle : m ≤ BSIZE - off % BSIZE := min_le_right _ _
      have hmn : m ≤ n - tot := min_le_left _ _
      have hmpos : 0 < m := by
        rw [hm]
        exact lt_min (by omega) (by omega)
      have hlen := src.copy_length tot m
      have hofs : off / BSIZE * BSIZE + off % BSIZE = off := by rw [Nat.mul_comm]; exact hoff
      -- what was copied, all of it or what came before a fault, is written
      have hdata : ∀ s2, DataWrite s1 s2 r.toNat ((s1.disk r.toNat).splice (off % BSIZE) (src.copy tot m).1) →
          Written sb s s2 ip i off m ∧ owner sb s2 (fileSlot i (off / BSIZE)) ≠ none ∧
            ∀ t < (src.copy tot m).1.length, fileByte sb s2 i (off + t) = (src.copy tot m).1.getD t 0 := by
        intro s2 hw
        obtain ⟨hw1, hw2⟩ := hw.written hsb hg.tab hg.blk hbn hslot (by omega) ip
        rw [hofs] at hw1 hw2
        refine ⟨(hg.written off m).trans hw1 le_rfl le_rfl le_rfl (by omega), hw1.keep _ ?_, hw2⟩
        rw [hslot]
        exact Option.some_ne_none _
      cases hok : (src.copy tot m).2 with
      | true =>
        simp only [if_true, logWrite, wp_bind, wp_modify]
        obtain ⟨hw, hblk, hbytes⟩ := hdata (s1.write r.toNat ((s1.disk r.toNat).splice (off % BSIZE) (src.copy tot m).1))
          ⟨rfl, rfl, rfl⟩
        have hrest := @ih _ hw.tab hw.blk (hw.live hl) (tot + m) (off + m) (by omega) (by omega) (by omega)
          ⟨hw.tab, hw.blk, .refl⟩
        refine wp_mono hrest (fun r' s3 h3 => ?_) fun _ he => he
        refine h3.step hmpos (by omega) (fun hone => ?_) hok (pass_edge hle) hw (fun hs t ht => ?_) (fun t ht => ?_) hmax
        · rw [hm, min_eq_left (by omega)]
          omega
        · have hcopy := Src.copy_ok hs (by omega : tot + m ≤ n) hok
          rw [hbytes t (by rw [hcopy]; simpa using ht), hcopy]
          simp [ht]
        · rwa [div_within (show off % BSIZE + t < BSIZE by omega)]
      | false =>
        simp only [Bool.false_eq_true, if_false, poke, wp_bind, wp_modify, wp_pure]
        obtain ⟨hw, -⟩ := hdata (s1.poke r.toNat ((s1.disk r.toNat).splice (off % BSIZE) (src.copy tot m).1))
          ⟨rfl, rfl, rfl⟩
        refine .stop hle ?_ (fun hclean => ?_) fun hkern => ?_
        · exact (hw.trans (Grown.written ⟨hw.tab, hw.blk, .refl⟩ off m) le_rfl le_rfl (by omega) (by omega))
        · -- nothing was copied: the block is as it was
          have hnil := hclean tot m le_rfl (by omega) (fun k h1 h2 => absurd h2 (by omega)) (.inl rfl)
            (by rw [Nat.sub_self, Nat.add_zero]; omega) hok
          rw [hnil, ByteVec.splice_nil, State.poke, Function.update_eq_self]
          exact hg.written off 0
        · rw [Src.copy_kernel hkern] at hok
          cases hok

/-- The size of a file after a write up to `off`. -/
def grownSize (d : Dinode) (off : ℕ) : UInt32 := if off > d.size.toNat then UInt32.ofNat off else d.size

/-- What `writei` of `n` bytes at `off` did when it returned `tot`. -/
structure Wrote (sb : Superblock) (s s' : State) (ip : Ip) (i : ℕ) (src : Src) (off n tot : ℕ) : Prop where
  tab : TableInv sb s'
  blk : BlockInv sb s' ∅
  table : ∀ jp, jp ≠ ip → s'.itable jp = s.itable jp
  entry : ∃ a, s'.itable ip = { s.itable ip with d := { (s.itable ip).d with
    size := grownSize (s.itable ip).d (off + tot), addrs := a } }
  dino : ∀ j < sb.ninodes, dino sb s' j = if j = i then (s'.itable ip).d else dino sb s j
  keep : ∀ x, owner sb s x ≠ none → owner sb s' x ≠ none
  other : ∀ x, x.inum ≠ i → owner sb s' x = owner sb s x
  bytes : ∀ j o, o < MAXFILE * BSIZE → (j ≠ i ∨ o < off ∨ off + n ≤ o) → fileByte sb s' j o = fileByte sb s j o
  le : tot ≤ n
  inside : src.Holds n → ∀ t < tot, fileByte sb s' i (off + t) = src.byte t
  dense : ∀ o, off ≤ o → o < off + tot → owner sb s' (fileSlot i (o / BSIZE)) ≠ none
  all : src.Kernel → (∀ o, off ≤ o → o < off + n → owner sb s (fileSlot i (o / BSIZE)) ≠ none) → tot = n
  exact : src.Clean n 0 off → ∀ j o, o < MAXFILE * BSIZE → (j ≠ i ∨ o < off ∨ off + tot ≤ o) →
    fileByte sb s' j o = fileByte sb s j o
  single : src.Kernel → off % BSIZE + n ≤ BSIZE → tot = 0 ∨ tot = n
  aux : s'.aux = s.aux

theorem toNat_add_of_not_lt {a b : UInt32} (h : ¬ a + b < a) : (a + b).toNat = a.toNat + b.toNat := by
  rw [UInt32.lt_iff_toNat_lt, UInt32.toNat_add] at h
  have ha := a.toNat_lt
  have hb := b.toNat_lt
  rw [UInt32.toNat_add]
  omega

/-- The last part of `writei`: the size, in the table and on disk. -/
theorem LoopWrote.wrote (hsb : sb.Wf) (hl : Live s ip i) {s1 : State} {off tot off' : ℕ}
    (h : LoopWrote sb s s1 ip i src n 0 off tot off') :
    Wrote sb s ((s1.setD ip { (s1.itable ip).d with size := grownSize (s1.itable ip).d off' }).update sb ip)
      ip i src off n tot := by
  have hw := h.written
  have hadv : off' = off + tot := h.adv
  subst hadv
  obtain ⟨a, ha⟩ := hw.entry
  have hl1 : Live s1 ip i := hw.live hl
  set d : Dinode := { (s1.itable ip).d with size := grownSize (s1.itable ip).d (off + tot) } with hd
  have hT2 : TableInv sb (s1.setD ip d) := hw.tab.assign rfl
  have hl2 : Live (s1.setD ip d) ip i := live_setD.mpr hl1
  have hB2 : BlockInv sb (s1.setD ip d) ∅ := hw.blk.assign hw.tab hl1 rfl rfl
  have hself : (s1.setD ip d).itable ip = { s.itable ip with d := d } := by rw [setD_itable_self, ha]
  have hown : ∀ x, owner sb ((s1.setD ip d).update sb ip) x = owner sb s1 x := fun x =>
    (update_owner hsb hT2 hl2 hB2 x).trans (owner_assign hw.tab hl1 (by rfl) (by rfl) x)
  have hdisk : ∀ c, sb.datastart ≤ c → ((s1.setD ip d).update sb ip).disk c = s1.disk c := fun c hc =>
    update_disk hsb hT2 hl2 hc
  have hbyte : ∀ j o, fileByte sb ((s1.setD ip d).update sb ip) j o = fileByte sb s1 j o := fun j o =>
    fileByte_congr (hown _) fun b hb => hdisk b (hw.blk.own.owned hb).1.1
  refine ⟨hT2.update hl2, hB2.update hsb hT2 hl2, fun jp hj => ?_, ⟨a, ?_⟩, fun j hj => ?_, fun x hx => ?_,
    fun x hx => ?_, fun j o ho hr => ?_, h.le, fun hs t ht => ?_, fun o h1 h2 => ?_, fun hk hall => h.all hk hall,
    fun hk j o ho hr => ?_, h.single, hw.aux⟩
  · exact (setD_itable_ne hj).trans (hw.table jp hj)
  · refine hself.trans ?_
    rw [hd, ha]
    rfl
  · rw [update_dino hl2]
    split_ifs
    · rfl
    · exact hw.dino j hj
  · rw [hown]
    exact hw.keep x hx
  · rw [hown]
    exact hw.other x hx
  · rw [hbyte]
    exact hw.bytes j o ho hr
  · rw [hbyte]
    exact h.inside hs t (Nat.zero_le t) ht
  · rw [hown]
    exact h.dense o h1 h2
  · rw [hbyte]
    exact (h.exact hk).bytes j o ho hr

theorem writei_spec (hsb : sb.Wf) (hT : TableInv sb s) (hB : BlockInv sb s ∅) (hl : Live s ip i) (src : Src)
    (off n : UInt32) :
    wp (writei sb ip src off n) (fun r s' =>
      (¬ (off ≤ (s.itable ip).d.size ∧ off.toNat + n.toNat ≤ MAXFILE * BSIZE) ∧ r = -1 ∧ s' = s) ∨
      (off ≤ (s.itable ip).d.size ∧ off.toNat + n.toNat ≤ MAXFILE * BSIZE ∧
        ∃ tot : ℕ, r = tot ∧ Wrote sb s s' ip i src off.toNat n.toNat tot)) (fun _ => False) s := by
  simp only [writei, getInode, wp_bind, wp_get, wp_pure]
  rw [wp_ite]
  refine ⟨fun hbad => ?_, fun hgood => ?_⟩
  · refine Or.inl ⟨fun hok => ?_, rfl, rfl⟩
    rcases hbad with hbad | hbad
    · exact absurd hok.1 (UInt32.not_le.mpr hbad)
    · have hmax : MAXFILE * BSIZE < 2 ^ 32 := by decide
      rw [UInt32.lt_iff_toNat_lt, UInt32.toNat_add, Nat.mod_eq_of_lt (by omega)] at hbad
      omega
  · rw [not_or] at hgood
    have hadd := toNat_add_of_not_lt hgood.2
    rw [wp_ite, hadd]
    refine ⟨fun hbig => Or.inl ⟨fun hok => absurd hok.2 (by omega), rfl, rfl⟩, fun hfit => ?_⟩
    rw [wp_bind]
    refine wp_mono (writeiFrom_spec hsb hT hB hl src n.toNat (Nat.zero_le _) (by omega) (by omega))
      (fun r s1 h => ?_) fun _ he => he
    have hw := h.wrote hsb hl
    rw [wp_bind, wp_setD, wp_bind]
    refine wp_mono iupdate_spec (fun _ s2 h2 => ?_) fun _ he => he
    rw [wp_pure]
    subst h2
    exact Or.inr ⟨UInt32.not_lt.mp hgood.1, by omega, r.1, rfl, hw⟩

end Writei

section Readi

variable {sb : Superblock} {s : State} {ip : Ip} {i : ℕ}

/-- The `n` bytes of file `i` from `off` on. -/
def fileSlice (sb : Superblock) (s : State) (i off n : ℕ) : List UInt8 :=
  (List.range n).map fun t => fileByte sb s i (off + t)

theorem fileSlice_add (off m n : ℕ) :
    fileSlice sb s i off (m + n) = fileSlice sb s i off m ++ fileSlice sb s i (off + m) n := by
  simp only [fileSlice, List.range_add, List.map_append, List.map_map, Function.comp_def, Nat.add_assoc]

theorem slice_eq_fileSlice {b off m : ℕ} (hb : owner sb s (fileSlot i (off / BSIZE)) = some b)
    (hm : off % BSIZE + m ≤ BSIZE) : (s.disk b).slice (off % BSIZE) m = fileSlice sb s i off m := by
  refine List.map_congr_left fun t ht => ?_
  have ht := List.mem_range.mp ht
  have hpos : 0 < BSIZE := by decide
  have hmod : (off + t) % BSIZE = off % BSIZE + t := by
    rw [Nat.add_mod, Nat.mod_eq_of_lt (show t < BSIZE by omega), Nat.mod_eq_of_lt (by omega)]
  unfold fileByte
  rw [div_within (by omega), hb, hmod]

/-- All of the `n` bytes can be copied out. -/
def Dst.Takes (n : ℕ) : Dst → Prop
  | .kernel => True
  | .user writable => ∀ t < n, writable t = true

theorem Dst.Takes.mono {dst : Dst} {n m : ℕ} (h : dst.Takes n) (hm : m ≤ n) : dst.Takes m := by
  cases dst with
  | kernel => trivial
  | user writable => exact fun t ht => h t (by omega)

theorem Dst.copy_takes {dst : Dst} {n t m : ℕ} (h : dst.Takes n) (hm : t + m ≤ n) : dst.copy t m = true := by
  cases dst with
  | kernel => rfl
  | user writable =>
    refine List.all_eq_true.mpr fun k hk => h (t + k) ?_
    have := List.mem_range.mp hk
    omega

/-- How many bytes `readi` reads: up to the end of the file. -/
def readLen (size off n : ℕ) : ℕ := min n (size - off)

variable (hsb : sb.Wf) (hT : TableInv sb s) (hB : BlockInv sb s ∅) (hl : Live s ip i)

include hsb hT hB hl

/-- Reading what has blocks changes nothing, and returns it where the destination takes it. -/
theorem readiFrom_spec {n : ℕ} (dst : Dst) (k : ℕ) {tot off : ℕ} (acc : List UInt8) (hle : tot ≤ n) (hk : n - tot ≤ k)
    (hmax : off + (n - tot) ≤ MAXFILE * BSIZE)
    (hown : ∀ o, off ≤ o → o < off + (n - tot) → owner sb s (fileSlot i (o / BSIZE)) ≠ none) :
    wp (readiFrom sb ip dst n k tot off acc)
      (fun r s' => s' = s ∧ (dst.Takes n → r = ((n : ℤ), acc ++ fileSlice sb s i off (n - tot)))) (fun _ => False) s := by
  induction k generalizing tot off acc with
  | zero =>
    obtain rfl : tot = n := by omega
    simp [readiFrom, fileSlice]
  | succ k ih =>
    rw [readiFrom, wp_ite]
    refine ⟨fun hlt => ?_, fun hge => ?_⟩
    · have hpos : 0 < BSIZE := by decide
      have hbn : off / BSIZE < MAXFILE := Nat.div_lt_of_lt_mul (by rw [Nat.mul_comm]; omega)
      rw [wp_bind]
      refine wp_mono (bmap_spec hsb hT hB hl hbn) (fun r s1 h1 => ?_) fun _ he => he
      obtain ⟨-, hr, hthere⟩ := h1
      obtain ⟨rfl, hnz⟩ := hthere (hown off le_rfl (by omega))
      have hmod := Nat.mod_lt off hpos
      set m := min (n - tot) (BSIZE - off % BSIZE) with hm
      have hmle : m ≤ BSIZE - off % BSIZE := min_le_right _ _
      have hmn : m ≤ n - tot := min_le_left _ _
      have hmpos : 0 < m := by
        rw [hm]
        exact lt_min (by omega) (by omega)
      simp only [if_neg hnz, bread, wp_bind, wp_get, wp_pure]
      rw [wp_ite]
      refine ⟨fun _ => ?_, fun hno => ⟨rfl, fun hdst => absurd (Dst.copy_takes hdst (by omega)) hno⟩⟩
      have hrest := @ih (tot + m) (off + m) (acc ++ (s1.disk r.toNat).slice (off % BSIZE) m)
        (by omega) (by omega) (by omega) fun o h1 h2 => hown o (by omega) (by omega)
      rw [slice_eq_fileSlice (hr hnz) (by omega), List.append_assoc, ← fileSlice_add,
        show m + (n - (tot + m)) = n - tot by omega] at hrest
      rw [slice_eq_fileSlice (hr hnz) (by omega)]
      exact hrest
    · obtain rfl : tot = n := by omega
      simp [fileSlice]

section Dense

variable (hmax : (s.itable ip).d.size.toNat ≤ MAXFILE * BSIZE)
  (hown : ∀ o < (s.itable ip).d.size.toNat, owner sb s (fileSlot i (o / BSIZE)) ≠ none)

include hmax hown

/-- Reading a file without holes. -/
theorem readi_dense (dst : Dst) (off n : UInt32) : wp (readi sb ip dst off n) (fun r s' => s' = s ∧
    (¬ (off > (s.itable ip).d.size ∨ off + n < off) → dst.Takes (readLen (s.itable ip).d.size.toNat off.toNat n.toNat) →
      r = ((readLen (s.itable ip).d.size.toNat off.toNat n.toNat : ℤ),
        fileSlice sb s i off.toNat (readLen (s.itable ip).d.size.toNat off.toNat n.toNat)))) (fun _ => False) s := by
  simp only [readi, getInode, wp_bind, wp_get, wp_pure]
  rw [wp_ite]
  refine ⟨fun hin => ⟨rfl, fun hout => absurd hin hout⟩, fun hin => ?_⟩
  rw [not_or, GT.gt, UInt32.lt_iff_toNat_lt, UInt32.lt_iff_toNat_lt, not_lt, not_lt] at hin
  have hadd : (off + n).toNat = off.toNat + n.toNat := toNat_add_of_not_lt (by rw [UInt32.lt_iff_toNat_lt]; omega)
  have hlen : (if off + n > (s.itable ip).d.size then (s.itable ip).d.size - off else n).toNat =
      readLen (s.itable ip).d.size.toNat off.toNat n.toNat := by
    rw [readLen]
    split_ifs with hgt
    · rw [GT.gt, UInt32.lt_iff_toNat_lt, hadd] at hgt
      rw [UInt32.toNat_sub_of_le _ _ (UInt32.le_iff_toNat_le.mpr hin.1)]
      omega
    · rw [GT.gt, UInt32.lt_iff_toNat_lt, not_lt, hadd] at hgt
      omega
  rw [hlen]
  have hle : off.toNat + readLen (s.itable ip).d.size.toNat off.toNat n.toNat ≤ (s.itable ip).d.size.toNat := by
    rw [readLen]
    omega
  exact wp_imp (readiFrom_spec hsb hT hB hl dst _ [] (Nat.zero_le _) le_rfl (by omega) fun o _ h => hown o (by omega))
    fun r s' h => ⟨h.1, fun _ => h.2⟩

theorem readi_same (dst : Dst) (off n : UInt32) : wp (readi sb ip dst off n) (fun _ s' => s' = s) (fun _ => False) s :=
  wp_imp (readi_dense hsb hT hB hl hmax hown dst off n) fun _ _ h => h.1

end Dense

theorem readi_spec {off n : UInt32} (hle : off.toNat + n.toNat ≤ (s.itable ip).d.size.toNat)
    (hmax : (s.itable ip).d.size.toNat ≤ MAXFILE * BSIZE)
    (hown : ∀ o < (s.itable ip).d.size.toNat, owner sb s (fileSlot i (o / BSIZE)) ≠ none) :
    wp (readi sb ip .kernel off n) (fun r s' => r = ((n.toNat : ℤ), fileSlice sb s i off.toNat n.toNat) ∧ s' = s)
      (fun _ => False) s := by
  have hbig : MAXFILE * BSIZE < 2 ^ 32 := by decide
  have hin : ¬ (off > (s.itable ip).d.size ∨ off + n < off) := by
    rw [GT.gt, UInt32.lt_iff_toNat_lt, UInt32.lt_iff_toNat_lt, UInt32.toNat_add, Nat.mod_eq_of_lt (by omega)]
    omega
  have hlen : readLen (s.itable ip).d.size.toNat off.toNat n.toNat = n.toNat := min_eq_left (by omega)
  refine wp_imp (readi_dense hsb hT hB hl hmax hown .kernel off n) fun r s' h => ⟨?_, h.1⟩
  have hr := h.2 hin trivial
  rwa [hlen] at hr

end Readi

end Xv6.Fs
