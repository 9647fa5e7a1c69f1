import Mathlib.Tactic

/-! Linked lists and rings: `next` gives the successor of a node. -/

namespace Links

variable {α : Type*} {next next' : α → α} {a e x : α} {l r : List α}

/-- The nodes of the list follow one after the other, and `e` follows the last. -/
def Chain (next : α → α) : List α → α → Prop
  | [], _ => True
  | a :: l, e => next a = l.head?.getD e ∧ Chain next l e

theorem chain_append : Chain next (l ++ r) e ↔ Chain next l (r.head?.getD e) ∧ Chain next r e := by
  induction l with
  | nil => exact (and_iff_right trivial).symm
  | cons a l ih =>
    rw [List.cons_append, Chain, Chain, ih, and_assoc]
    cases l with
    | nil => rfl
    | cons b l => rfl

/-- A chain does not see what happens to other nodes. -/
theorem Chain.congr (h : Chain next l e) (hsame : ∀ y ∈ l, next' y = next y) : Chain next' l e := by
  induction l with
  | nil => trivial
  | cons a l ih =>
    exact ⟨(hsame a List.mem_cons_self).trans h.1, ih h.2 fun y hy => hsame y (List.mem_cons_of_mem a hy)⟩

/-- A ring can be entered at any of its nodes. -/
theorem Chain.rotate (h : Chain next (a :: l) a) (hx : x ∈ a :: l) : ∃ r, Chain next (x :: r) x ∧ (x :: r).Perm (a :: l) := by
  obtain ⟨l1, l2, hl⟩ := List.append_of_mem hx
  rw [hl] at h ⊢
  refine ⟨l2 ++ l1, ?_, by rw [← List.cons_append]; exact List.perm_append_comm⟩
  obtain ⟨h1, h2⟩ := chain_append.mp h
  rw [← List.cons_append]
  refine chain_append.mpr ⟨?_, h1⟩
  cases l1 with
  | nil =>
    obtain rfl : a = x := (List.cons.inj hl).1
    exact h2
  | cons b l1 =>
    obtain rfl : a = b := (List.cons.inj hl).1
    exact h2

section Doubly

variable {prev prev' : α → α} {b y : α}

/-- Neighbours in the list point at each other. -/
def Linked (next prev : α → α) (l : List α) : Prop := l.IsChain fun a b => next a = b ∧ prev b = a

theorem linked_append : Linked next prev (l ++ x :: y :: r) ↔
    Linked next prev (l ++ [x]) ∧ (next x = y ∧ prev y = x) ∧ Linked next prev (y :: r) := by
  rw [Linked, List.isChain_append_cons_cons]
  rfl

/-- Only the successors of all but the last and the predecessors of all but the first matter. -/
theorem Linked.congr (h : Linked next prev l) (hn : ∀ a ∈ l.dropLast, next' a = next a) (hp : ∀ a ∈ l.tail, prev' a = prev a) :
    Linked next' prev' l := by
  induction l with
  | nil => exact .nil
  | cons a l ih =>
    cases l with
    | nil => exact .singleton a
    | cons c l =>
      obtain ⟨hac, hrest⟩ := List.isChain_cons_cons.mp h
      rw [List.dropLast_cons_cons] at hn
      refine List.isChain_cons_cons.mpr ⟨⟨?_, ?_⟩, ih hrest (fun d hd => hn d (List.mem_cons_of_mem a hd)) fun d hd => ?_⟩
      · rw [hn a List.mem_cons_self, hac.1]
      · rw [hp c List.mem_cons_self, hac.2]
      · exact hp d (List.mem_cons_of_mem c hd)

variable [DecidableEq α]

/-- The neighbours of `b` pass it over. -/
theorem Linked.unlink (h : Linked next prev (l ++ x :: b :: y :: r)) (hd : (l ++ x :: b :: y :: r).dropLast.Nodup)
    (ht : (l ++ x :: b :: y :: r).tail.Nodup) :
    Linked (Function.update next (prev b) (next b)) (Function.update prev (next b) (prev b)) (l ++ x :: y :: r) := by
  obtain ⟨h1, hxb, h2⟩ := linked_append.mp h
  obtain ⟨hby, h3⟩ := List.isChain_cons_cons.mp h2
  rw [hxb.2, hby.1]
  rw [List.dropLast_append_of_ne_nil (List.cons_ne_nil _ _), List.dropLast_cons_cons, List.dropLast_cons_cons] at hd
  have htail : (l ++ x :: b :: y :: r).tail = (l ++ [x]).tail ++ b :: y :: r := by cases l <;> simp
  rw [htail] at ht
  obtain ⟨-, hdr, hdl⟩ := List.nodup_append.mp hd
  obtain ⟨-, htr, htl⟩ := List.nodup_append.mp ht
  refine linked_append.mpr ⟨h1.congr (fun a ha => ?_) fun a ha => ?_, ⟨Function.update_self .., Function.update_self ..⟩,
    Linked.congr h3 (fun a ha => ?_) fun a ha => ?_⟩
  · rw [List.dropLast_concat] at ha
    exact Function.update_of_ne (hdl a ha x List.mem_cons_self) ..
  · exact Function.update_of_ne (htl a ha y (by simp)) ..
  · refine Function.update_of_ne ?_ ..
    rintro rfl
    exact (List.nodup_cons.mp hdr).1 (List.mem_cons_of_mem b ha)
  · refine Function.update_of_ne ?_ ..
    rintro rfl
    exact (List.nodup_cons.mp (List.nodup_cons.mp htr).2).1 ha

/-- `b` between `x` and `y`. -/
theorem Linked.insert (h : Linked next prev (x :: y :: r)) (hb : b ∉ x :: y :: r) (hd : x ∉ (y :: r).dropLast) (ht : y ∉ r) :
    Linked (Function.update (Function.update next b y) x b) (Function.update (Function.update prev b x) y b) (x :: b :: y :: r) := by
  obtain ⟨hbx, hbr⟩ := not_or.mp (mt List.mem_cons.mpr hb)
  obtain ⟨hby, hbr'⟩ := not_or.mp (mt List.mem_cons.mpr hbr)
  have hrest := (List.isChain_cons_cons.mp h).2
  refine List.isChain_cons_cons.mpr ⟨⟨Function.update_self .., ?_⟩, List.isChain_cons_cons.mpr ⟨⟨?_, Function.update_self ..⟩, ?_⟩⟩
  · rw [Function.update_of_ne hby, Function.update_self]
  · rw [Function.update_of_ne hbx, Function.update_self]
  · refine Linked.congr hrest (fun a ha => ?_) fun a ha => ?_
    · rw [Function.update_of_ne (ne_of_mem_of_not_mem ha hd),
        Function.update_of_ne (ne_of_mem_of_not_mem (List.mem_of_mem_dropLast ha) hbr)]
    · rw [Function.update_of_ne (ne_of_mem_of_not_mem ha ht), Function.update_of_ne (ne_of_mem_of_not_mem ha hbr')]

end Doubly

end Links
