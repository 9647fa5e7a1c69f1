import Xv6.Lib.Links
import Xv6.Spec.BufferList

/-! The buffers stay one doubly linked ring, in the order of their last release. -/

namespace Xv6.BufferList

open Machine Links

variable {c : Bcache} {l : List BufId} {b : BufId} {σ : Client} {p : BufId → Bool}

section Pointers

/-- Once around the ring. -/
def around (l : List BufId) : List Node := none :: (l.map some ++ [none])

/-- The list from `head.next` on is `l`. -/
def Bcache.Ring (c : Bcache) (l : List BufId) : Prop := Linked c.next c.prev (around l)

theorem nodup_tail (h : l.Nodup) : (l.map some ++ [none]).Nodup := by
  refine List.nodup_append.mpr ⟨h.map (Option.some_injective _), List.nodup_singleton _, fun a ha d hd => ?_⟩
  obtain ⟨i, -, rfl⟩ := List.mem_map.mp ha
  rw [List.mem_singleton.mp hd]
  exact nofun

theorem Bcache.Ring.pushFront (h : c.Ring l) (hl : l.Nodup) (hb : b ∉ l) : (c.pushFront (some b)).Ring (b :: l) := by
  obtain ⟨y, r, hyr⟩ : ∃ y r, l.map some ++ [none] = y :: r := List.exists_cons_of_ne_nil (by simp)
  have hnd := nodup_tail hl
  unfold Ring around at h
  rw [hyr] at h hnd
  have hy : c.next none = y := (List.isChain_cons_cons.mp h).1.1
  have hmem : some b ∉ none :: y :: r := by
    rw [← hyr]
    simpa using hb
  have hhead : none ∉ (y :: r).dropLast := by
    rw [← hyr, List.dropLast_concat]
    simp
  have hins := h.insert hmem hhead (List.nodup_cons.mp hnd).1
  unfold Ring around
  rw [List.map_cons, List.cons_append, hyr]
  simpa only [Bcache.pushFront, Bcache.setNext, Bcache.setPrev, hy, Function.update_of_ne (Option.some_ne_none b).symm] using hins

theorem Bcache.Ring.unlink {l1 l2 : List BufId} (h : c.Ring (l1 ++ b :: l2)) (hl : (l1 ++ b :: l2).Nodup) :
    (c.unlink (some b)).Ring (l1 ++ l2) := by
  obtain ⟨L, x, hx⟩ : ∃ L x, none :: l1.map some = L ++ [x] :=
    ⟨_, _, (List.dropLast_append_getLast (List.cons_ne_nil _ _)).symm⟩
  obtain ⟨y, R, hy⟩ : ∃ y R, l2.map some ++ [none] = y :: R := List.exists_cons_of_ne_nil (by simp)
  have hsplit : around (l1 ++ b :: l2) = L ++ x :: some b :: y :: R := by
    rw [around, List.map_append, List.append_assoc, ← List.cons_append, hx, List.map_cons, List.cons_append, hy]
    simp
  have hsplit' : around (l1 ++ l2) = L ++ x :: y :: R := by
    rw [around, List.map_append, List.append_assoc, ← List.cons_append, hx, hy]
    simp
  have hd : (around (l1 ++ b :: l2)).dropLast.Nodup := by
    rw [around, ← List.cons_append, List.dropLast_concat, List.nodup_cons]
    exact ⟨by simp, hl.map (Option.some_injective _)⟩
  have ht : (around (l1 ++ b :: l2)).tail.Nodup := nodup_tail hl
  unfold Ring at h ⊢
  rw [hsplit] at h hd ht
  rw [hsplit']
  have hby : c.next (some b) = y := (List.isChain_cons_cons.mp (linked_append.mp h).2.2).1.1
  have hne : some b ≠ y := by
    rintro rfl
    have hmem : some b ∈ l2.map some ++ [none] := hy ▸ List.mem_cons_self
    have hb : b ∉ l2 := (List.nodup_cons.mp (List.nodup_append.mp hl).2.1).1
    exact hb (by simpa using hmem)
  have hun := h.unlink hd ht
  simpa only [Bcache.unlink, Bcache.setNext, Bcache.setPrev, hby, Function.update_of_ne hne] using hun

/-- To the front. -/
theorem Bcache.Ring.move (h : c.Ring l) (hl : l.Nodup) (hb : b ∈ l) :
    ((c.unlink (some b)).pushFront (some b)).Ring (b :: l.erase b) := by
  obtain ⟨l1, l2, rfl⟩ := List.append_of_mem hb
  obtain ⟨hb1, hnd⟩ := List.nodup_cons.mp (List.nodup_middle.mp hl)
  rw [List.erase_append_right _ fun h1 => hb1 (List.mem_append_left _ h1), List.erase_cons_head]
  exact (h.unlink hl).pushFront hnd hb1

theorem binit_ring : binit.Ring (List.finRange NBUF).reverse := by
  have hfold : ∀ (bs l : List BufId) (c : Bcache), c.Ring l → (bs.reverse ++ l).Nodup →
      (bs.foldl (fun c b => c.pushFront (some b)) c).Ring (bs.reverse ++ l) := by
    intro bs
    induction bs with
    | nil => exact fun l c h _ => h
    | cons b bs ih =>
      intro l c h hnd
      rw [List.reverse_cons, List.append_assoc, List.singleton_append] at hnd ⊢
      obtain ⟨hb, hl⟩ := List.nodup_cons.mp (List.nodup_append.mp hnd).2.1
      exact ih (b :: l) _ (h.pushFront hl hb) hnd
  have hempty : Bcache.Ring ⟨fun _ => none, fun _ => none, fun _ => ⟨0, 0, false, 0⟩⟩ [] :=
    List.isChain_cons_cons.mpr ⟨⟨rfl, rfl⟩, .singleton _⟩
  have h := hfold (List.finRange NBUF) [] _ hempty (by simpa using List.nodup_finRange NBUF)
  rwa [List.append_nil] at h

/-- A scan goes through the list. -/
theorem scan_eq {next : Node → Node} {x : Node} {k : ℕ} (h : (x :: (l.map some ++ [none])).IsChain fun a d => next a = d)
    (hk : l.length < k) : scan next p k (next x) = .ok (l.find? p) := by
  induction l generalizing x k with
  | nil =>
    obtain ⟨k, rfl⟩ := Nat.exists_eq_succ_of_ne_zero (Nat.ne_of_gt hk)
    rw [(List.isChain_cons_cons.mp h).1]
    rfl
  | cons b l ih =>
    obtain ⟨k, rfl⟩ := Nat.exists_eq_succ_of_ne_zero (Nat.ne_of_gt (Nat.zero_lt_of_lt hk))
    obtain ⟨hb, hrest⟩ := List.isChain_cons_cons.mp h
    rw [hb, scan, List.find?_cons]
    cases p b with
    | true => rfl
    | false => exact ih hrest (Nat.lt_of_succ_lt_succ hk)

theorem Bcache.Ring.scan_next (h : c.Ring l) (hl : l.length ≤ NBUF) : scan c.next p (NBUF + 1) (c.next none) = .ok (l.find? p) :=
  scan_eq (List.IsChain.imp (fun _ _ h => h.1) h) (Nat.lt_succ_of_le hl)

theorem Bcache.Ring.scan_prev (h : c.Ring l) (hl : l.length ≤ NBUF) :
    scan c.prev p (NBUF + 1) (c.prev none) = .ok (l.reverse.find? p) := by
  refine scan_eq ?_ (by rw [List.length_reverse]; exact Nat.lt_succ_of_le hl)
  have hrev : none :: (l.reverse.map some ++ [none]) = (around l).reverse := by
    rw [around, List.reverse_cons, List.reverse_append, List.map_reverse]
    rfl
  rw [hrev, List.isChain_reverse]
  exact List.IsChain.imp (fun _ _ h => h.2) h

end Pointers

/-- `a` was released to 0 after `b`, or neither was and `a` is the later one of `binit`. -/
def Newer (last : BufId → ℕ) (a b : BufId) : Prop := last b < last a ∨ last a = last b ∧ b < a

/-- The ring holds every buffer once, in the order of the last releases to 0; a block of a device is in one buffer; and a
count is that of the holders and pins. -/
structure Listed (σ : Client) (l : List BufId) : Prop where
  ring : σ.cache.Ring l
  perm : l.Perm (List.finRange NBUF)
  order : l.Pairwise (Newer σ.last)
  unique : ∀ i j, (σ.cache.buf i).dev ≠ 0 → (σ.cache.buf i).dev = (σ.cache.buf j).dev →
    (σ.cache.buf i).blockno = (σ.cache.buf j).blockno → i = j
  count : ∀ i, (σ.cache.buf i).refcnt.toNat = σ.holders i + σ.pins i
  past : ∀ i, σ.last i ≤ σ.clock

section Steps

section Facts

variable (h : Listed σ l)

include h

theorem Listed.length : l.length ≤ NBUF := by
  rw [h.perm.length_eq, List.length_finRange]

theorem Listed.mem (b : BufId) : b ∈ l := h.perm.mem_iff.mpr (List.mem_finRange b)

theorem Listed.nodup : l.Nodup := h.perm.nodup_iff.mpr (List.nodup_finRange NBUF)

/-- What `bget` finds. -/
theorem Listed.bget_eq (dev blockno : UInt32) : bget σ.cache dev blockno =
    match l.find? fun b => (σ.cache.buf b).dev = dev ∧ (σ.cache.buf b).blockno = blockno with
    | some b => .ok (b, σ.cache.setBuf b { σ.cache.buf b with refcnt := (σ.cache.buf b).refcnt + 1 })
    | none =>
      match l.reverse.find? fun b => (σ.cache.buf b).refcnt = 0 with
      | some b => .ok (b, σ.cache.setBuf b ⟨dev, blockno, false, 1⟩)
      | none => .error (.panic "bget: no buffers") := by
  rw [bget, h.ring.scan_next h.length]
  cases l.find? _ with
  | some b => rfl
  | none =>
    change (scan σ.cache.prev _ (NBUF + 1) (σ.cache.prev none) >>= _) = _
    rw [h.ring.scan_prev h.length]
    cases l.reverse.find? _ with
    | some b => rfl
    | none => rfl

/-- Another header for one buffer, with its holders and pins. -/
theorem Listed.change {i : BufId} {new : Buf} {holders pins : ℕ} (hcount : new.refcnt.toNat = holders + pins)
    (hnew : ∀ j ≠ i, new.dev ≠ 0 → new.dev = (σ.cache.buf j).dev → new.blockno ≠ (σ.cache.buf j).blockno) :
    Listed { σ with
      cache := σ.cache.setBuf i new
      holders := Function.update σ.holders i holders
      pins := Function.update σ.pins i pins } l where
  ring := h.ring
  perm := h.perm
  order := h.order
  past := h.past
  unique a d := by
    simp only [Bcache.setBuf]
    rcases eq_or_ne a i with rfl | ha <;> rcases eq_or_ne d a with rfl | hd
    · exact fun _ _ _ => rfl
    · rw [Function.update_self, Function.update_of_ne hd]
      exact fun h0 hdev hblock => absurd hblock (hnew d hd h0 hdev)
    · exact fun _ _ _ => rfl
    · rw [Function.update_of_ne ha]
      rcases eq_or_ne d i with rfl | hdi
      · rw [Function.update_self]
        exact fun h0 hdev hblock => absurd hblock.symm (hnew a ha (hdev ▸ h0) hdev.symm)
      · rw [Function.update_of_ne hdi]
        exact h.unique a d
  count a := by
    simp only [Bcache.setBuf]
    rcases eq_or_ne a i with rfl | ha
    · simp only [Function.update_self, hcount]
    · simp only [Function.update_of_ne ha, h.count]

/-- Another count. -/
theorem Listed.recount (i : BufId) {r : UInt32} {holders pins : ℕ} (hcount : r.toNat = holders + pins) :
    Listed { σ with
      cache := σ.cache.setBuf i { σ.cache.buf i with refcnt := r }
      holders := Function.update σ.holders i holders
      pins := Function.update σ.pins i pins } l :=
  h.change hcount fun j hj h0 hdev hblock => hj (h.unique i j h0 hdev hblock).symm

theorem Listed.incr (hlt : σ.holders b + σ.pins b + 1 < 2 ^ 32) :
    ((σ.cache.buf b).refcnt + 1).toNat = σ.holders b + σ.pins b + 1 := by
  rw [UInt32.toNat_add, h.count]
  exact Nat.mod_eq_of_lt hlt

theorem Listed.decr (hpos : 0 < σ.holders b + σ.pins b) :
    ((σ.cache.buf b).refcnt - 1).toNat = σ.holders b + σ.pins b - 1 := by
  rw [UInt32.toNat_sub_of_le, h.count]
  · rfl
  · rw [UInt32.le_iff_toNat_le, h.count]
    exact hpos

/-- Released to 0, a buffer is the newest. -/
theorem Listed.release : Listed { σ with
    cache := (σ.cache.unlink (some b)).pushFront (some b)
    last := Function.update σ.last b (σ.clock + 1)
    clock := σ.clock + 1 } (b :: l.erase b) where
  ring := h.ring.move h.nodup (h.mem b)
  perm := (List.perm_cons_erase (h.mem b)).symm.trans h.perm
  order := by
    have hb : b ∉ l.erase b := h.nodup.not_mem_erase
    refine List.pairwise_cons.mpr ⟨fun a ha => .inl ?_, (h.order.sublist List.erase_sublist).imp_of_mem fun {a d} ha hd hnew => ?_⟩
    · simp only [Function.update_self, Function.update_of_ne (ne_of_mem_of_not_mem ha hb)]
      exact Nat.lt_succ_of_le (h.past a)
    · unfold Newer
      simp only [Function.update_of_ne (ne_of_mem_of_not_mem ha hb), Function.update_of_ne (ne_of_mem_of_not_mem hd hb)]
      exact hnew
  unique := h.unique
  count := h.count
  past a := by
    rcases eq_or_ne a b with rfl | ha
    · simp only [Function.update_self, le_refl]
    · simp only [Function.update_of_ne ha]
      exact (h.past a).trans (Nat.le_succ _)

end Facts

theorem binit_buf (i : BufId) : binit.buf i = ⟨0, 0, false, 0⟩ := by
  have hfold : ∀ (bs : List BufId) (c : Bcache), (bs.foldl (fun c b => c.pushFront (some b)) c).buf = c.buf := by
    intro bs
    induction bs with
    | nil => exact fun c => rfl
    | cons b bs ih => exact fun c => ih (c.pushFront (some b))
  rw [binit, hfold]

theorem boot_listed : Listed boot (List.finRange NBUF).reverse where
  ring := binit_ring
  perm := List.reverse_perm _
  order := List.pairwise_reverse.mpr ((List.pairwise_lt_finRange NBUF).imp fun h => .inr ⟨rfl, h⟩)
  unique i _ h0 := absurd (congrArg Buf.dev (binit_buf i)) h0
  count i := congrArg (fun b : Buf => b.refcnt.toNat) (binit_buf i)
  past _ := le_rfl

theorem bget_step {dev blockno : UInt32} {c : Bcache} (h : Listed σ l) (hp : Proper σ (.bget dev blockno))
    (hget : bget σ.cache dev blockno = .ok (b, c)) :
    Listed { σ with cache := c, holders := Function.update σ.holders b (σ.holders b + 1) } l := by
  rw [h.bget_eq] at hget
  cases hfind : l.find? fun b => (σ.cache.buf b).dev = dev ∧ (σ.cache.buf b).blockno = blockno with
  | some i =>
    simp only [hfind] at hget
    obtain ⟨rfl, rfl⟩ := Prod.mk.inj (Except.ok.inj hget)
    have hnew := h.recount i ((h.incr (hp i)).trans (Nat.add_right_comm ..))
    rwa [Function.update_eq_self] at hnew
  | none =>
    simp only [hfind] at hget
    cases hfree : l.reverse.find? fun b => (σ.cache.buf b).refcnt = 0 with
    | none => simp only [hfree, reduceCtorEq] at hget
    | some i =>
      simp only [hfree] at hget
      obtain ⟨rfl, rfl⟩ := Prod.mk.inj (Except.ok.inj hget)
      have hzero : σ.holders i + σ.pins i = 0 := by
        have hz : (σ.cache.buf i).refcnt = 0 := by simpa using List.find?_some hfree
        rw [← h.count, hz]
        rfl
      have hnone : ∀ j ≠ i, dev ≠ 0 → dev = (σ.cache.buf j).dev → blockno ≠ (σ.cache.buf j).blockno := by
        intro j _ _ hdev hblock
        have hno := List.find?_eq_none.mp hfind j (h.mem j)
        exact hno (decide_eq_true ⟨hdev.symm, hblock.symm⟩)
      have hone : (⟨dev, blockno, false, 1⟩ : Buf).refcnt.toNat = σ.holders i + 1 + σ.pins i := by
        rw [Nat.add_right_comm, hzero]
        rfl
      have hnew := h.change hone hnone
      rwa [Function.update_eq_self] at hnew

theorem brelse_step {σ' : Client} (h : Listed σ l) (hp : Proper σ (.brelse b)) (hs : step (.brelse b) σ = .ok σ') :
    ∃ l', Listed σ' l' := by
  have hpos : 0 < σ.holders b := hp
  have hnew := h.recount b ((h.decr (Nat.add_pos_left hpos _)).trans (Nat.sub_add_comm hpos))
  rw [Function.update_eq_self] at hnew
  have hbuf : ((σ.cache.setBuf b { σ.cache.buf b with refcnt := (σ.cache.buf b).refcnt - 1 }).buf b).refcnt =
      (σ.cache.buf b).refcnt - 1 := by simp only [Bcache.setBuf, Function.update_self]
  by_cases hzero : (σ.cache.buf b).refcnt - 1 = 0
  · have hcache : brelse σ.cache b = ((σ.cache.setBuf b { σ.cache.buf b with refcnt := (σ.cache.buf b).refcnt - 1 }).unlink
        (some b)).pushFront (some b) := if_pos (hbuf.trans hzero)
    rw [step, hcache] at hs
    obtain rfl := Outcome.ok.inj ((if_pos (hbuf.trans hzero)).symm.trans hs)
    exact ⟨_, hnew.release⟩
  · have hcache : brelse σ.cache b = σ.cache.setBuf b { σ.cache.buf b with refcnt := (σ.cache.buf b).refcnt - 1 } :=
      if_neg fun h0 => hzero (hbuf.symm.trans h0)
    rw [step, hcache] at hs
    obtain rfl := Outcome.ok.inj ((if_neg fun h0 => hzero (hbuf.symm.trans h0)).symm.trans hs)
    exact ⟨l, hnew⟩

theorem step_listed {act : Act} {σ' : Client} (h : Listed σ l) (hp : Proper σ act) (hs : step act σ = .ok σ') :
    ∃ l', Listed σ' l' := by
  cases act with
  | bget dev blockno =>
    rw [step] at hs
    cases hget : bget σ.cache dev blockno with
    | error e =>
      rw [hget] at hs
      cases hs
    | ok r =>
      rw [hget] at hs
      obtain rfl := Outcome.ok.inj hs
      exact ⟨l, bget_step h hp hget⟩
  | brelse b => exact brelse_step h hp hs
  | bpin b =>
    obtain rfl := Outcome.ok.inj hs
    have hnew := h.recount b ((h.incr hp).trans (Nat.add_assoc ..))
    rw [Function.update_eq_self] at hnew
    exact ⟨l, hnew⟩
  | bunpin b =>
    obtain rfl := Outcome.ok.inj hs
    obtain ⟨hpos, hpins⟩ := hp
    have hnew := h.recount b ((h.decr (Nat.add_pos_left hpos _)).trans (Nat.add_sub_assoc hpins _))
    rw [Function.update_eq_self] at hnew
    exact ⟨l, hnew⟩

end Steps

/-- Of the buffers without references, `b` was released first. -/
def Oldest (σ : Client) (b : BufId) : Prop :=
  (σ.cache.buf b).refcnt = 0 ∧ ∀ a, (σ.cache.buf a).refcnt = 0 → a ≠ b → Newer σ.last a b

def Caches (c : Bcache) (dev blockno : UInt32) (b : BufId) : Prop := (c.buf b).dev = dev ∧ (c.buf b).blockno = blockno

/-- What `bget` returns: the cached buffer, the oldest unused one, or nothing if all are in use. -/
theorem Listed.bget_spec (h : Listed σ l) (dev blockno : UInt32) :
    (∃ b c, bget σ.cache dev blockno = .ok (b, c) ∧
      (Caches σ.cache dev blockno b ∨ (∀ a, ¬ Caches σ.cache dev blockno a) ∧ Oldest σ b)) ∨
    bget σ.cache dev blockno = .error (.panic "bget: no buffers") ∧ ∀ b, (σ.cache.buf b).refcnt ≠ 0 := by
  rw [h.bget_eq]
  cases hfind : l.find? fun b => (σ.cache.buf b).dev = dev ∧ (σ.cache.buf b).blockno = blockno with
  | some b => exact .inl ⟨b, _, rfl, .inl (by simpa [Caches] using List.find?_some hfind)⟩
  | none =>
    have hnone : ∀ a, ¬ Caches σ.cache dev blockno a := fun a => by
      simpa only [Caches, decide_eq_true_eq] using List.find?_eq_none.mp hfind a (h.mem a)
    cases hfree : l.reverse.find? fun b => (σ.cache.buf b).refcnt = 0 with
    | none =>
      refine .inr ⟨rfl, fun b => ?_⟩
      simpa only [decide_eq_true_eq] using List.find?_eq_none.mp hfree b (List.mem_reverse.mpr (h.mem b))
    | some b =>
      obtain ⟨hb, l2, l1, hl, hused⟩ := List.find?_eq_some_iff_append.mp hfree
      refine .inl ⟨b, _, rfl, .inr ⟨hnone, by simpa using hb, fun a ha hne => ?_⟩⟩
      have hl' : l = l1.reverse ++ b :: l2.reverse := by
        rw [← List.reverse_reverse l, hl]
        simp
      have hmem := h.mem a
      rw [hl', List.mem_append, List.mem_cons] at hmem
      have hord := h.order
      rw [hl'] at hord
      rcases hmem with hmem | rfl | hmem
      · exact (List.pairwise_append.mp hord).2.2 a hmem b List.mem_cons_self
      · exact absurd rfl hne
      · have := hused a (List.mem_reverse.mp hmem)
        simp [ha] at this

/-- **The list of buffers.** After every sequence of calls the links are one ring of all buffers in the order of the last
releases to 0, with one buffer for a block and counts that are right; and `bget` finds a block or recycles the oldest buffer. -/
theorem buffer_list_sound {acts : List Act} (hrun : Run step Proper boot acts σ) :
    (∃ l, Listed σ l) ∧ ∀ dev blockno,
      (∃ b c, bget σ.cache dev blockno = .ok (b, c) ∧
        (Caches σ.cache dev blockno b ∨ (∀ a, ¬ Caches σ.cache dev blockno a) ∧ Oldest σ b)) ∨
      bget σ.cache dev blockno = .error (.panic "bget: no buffers") ∧ ∀ b, (σ.cache.buf b).refcnt ≠ 0 := by
  obtain ⟨l, h⟩ : ∃ l, Listed σ l := by
    refine hrun.inv (I := fun σ => ∃ l, Listed σ l) ⟨_, boot_listed⟩ ?_
    rintro t a u ⟨l, h⟩ hp hs
    exact step_listed h hp hs
  exact ⟨⟨l, h⟩, h.bget_spec⟩

instance (σ : Client) : DecidablePred (Proper σ) := fun act =>
  match act with
  | .bget _ _ => inferInstanceAs (Decidable (∀ b, σ.holders b + σ.pins b + 1 < 2 ^ 32))
  | .brelse b => inferInstanceAs (Decidable (0 < σ.holders b))
  | .bpin b => inferInstanceAs (Decidable (σ.holders b + σ.pins b + 1 < 2 ^ 32))
  | .bunpin b => inferInstanceAs (Decidable (0 < σ.holders b ∧ 0 < σ.pins b))

/-- A block is read, pinned, released, and read again and unpinned. -/
theorem buffer_list_sound_pinned : ∃ σ, Run step Proper boot
    [.bget 1 5, .bpin 0, .brelse 0, .bget 1 5, .bunpin 0, .brelse 0] σ ∧ σ.clock = 1 ∧ ∃ l, Listed σ l := by
  have hexec : (execIf step (fun σ a => decide (Proper σ a))
      [.bget 1 5, .bpin 0, .brelse 0, .bget 1 5, .bunpin 0, .brelse 0] boot).Sat fun σ => σ.clock = 1 := by
    decide +kernel
  obtain ⟨σ, hσ, hclock⟩ := hexec.ok
  have hrun := (run_of_execIf hσ).mono fun _ _ => of_decide_eq_true
  exact ⟨σ, hrun, hclock, (buffer_list_sound hrun).1⟩

/-- `bunpin` of a buffer that its caller holds and nobody has pinned: the count is 0 while there is a holder. -/
theorem unpinned_holder : ∃ σ, Run step Held boot [.bget 1 5, .bunpin 0] σ ∧ (σ.cache.buf 0).refcnt = 0 ∧ σ.holders 0 = 1 := by
  have hexec : (execIf step (fun _ _ => true) [.bget 1 5] boot).Sat fun σ =>
      (0 < σ.holders 0) ∧ (step (.bunpin 0) σ).Sat fun τ => (τ.cache.buf 0).refcnt = 0 ∧ τ.holders 0 = 1 := by
    decide +kernel
  obtain ⟨σ, τ, hσ, hheld, hstep, hτ⟩ := Outcome.Sat.seq hexec
  have hrun : Run step Held boot [.bget 1 5] σ := (run_of_execIf hσ).labels (by simp [Held])
  exact ⟨τ, hrun.snoc hheld hstep, hτ⟩

end Xv6.BufferList
