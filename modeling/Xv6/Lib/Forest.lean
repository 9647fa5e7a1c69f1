import Xv6.Lib.Ownership

/-! Trees of tables in a flat memory. A table is a resource, its entries point to further resources;
`next b i` is where entry `i` of table `b` points to. The places of a forest are the roots with a path
of entries. Those that count are owned in the sense of `Ownership`, so a table is at one place only and
writing one of its entries changes what is found at that place and nowhere else. -/

namespace Forest

set_option linter.unusedSectionVars false

open Ownership

variable {R I : Type} {next next' : R → I → Option R} {r b c : R} {i : I} {path q rest : List I}

/-- What is found from `r` along a path of entries. -/
def follow (next : R → I → Option R) : R → List I → Option R
  | r, [] => some r
  | r, i :: is => (next r i).bind fun c => follow next c is

@[simp] theorem follow_nil : follow next r [] = some r := rfl

theorem follow_append (q rest : List I) : follow next r (q ++ rest) = (follow next r q).bind fun b => follow next b rest := by
  induction q generalizing r with
  | nil => rfl
  | cons i q ih =>
    simp only [List.cons_append, follow]
    cases next r i with
    | none => rfl
    | some c => exact ih

theorem follow_entry (hq : follow next r q = some b) : follow next r (q ++ i :: rest) = (next b i).bind fun c => follow next c rest := by
  rw [follow_append, hq]
  rfl

/-- What is found depends on the entries along the path only. -/
theorem follow_congr (h : ∀ q i rest b, path = q ++ i :: rest → follow next r q = some b → next' b i = next b i) :
    follow next' r path = follow next r path := by
  induction path generalizing r with
  | nil => rfl
  | cons i is ih =>
    have hfirst : next' r i = next r i := h [] i is r rfl rfl
    simp only [follow, hfirst]
    cases hc : next r i with
    | none => rfl
    | some c =>
      refine ih fun q j rest b hq hb => h (i :: q) j rest b (by rw [hq]; rfl) ?_
      simp only [follow, hc]
      exact hb

section Tree

variable {n : ℕ}

/-- What is found from `r` within `n` entries. -/
def Node (next : R → I → Option R) (n : ℕ) (r b : R) : Prop := ∃ q : List I, q.length ≤ n ∧ follow next r q = some b

/-- Nothing is found from `r` along two paths of at most `n` entries. -/
def Tree (next : R → I → Option R) (n : ℕ) (r : R) : Prop :=
  ∀ q q' b, q.length ≤ n → q'.length ≤ n → follow next r q = some b → follow next r q' = some b → q = q'

theorem Node.congr (h : ∀ path, path.length ≤ n → follow next' r path = follow next r path) : Node next' n r b ↔ Node next n r b :=
  exists_congr fun q => and_congr_right fun hq => by rw [h q hq]

theorem Tree.congr (ht : Tree next n r) (h : ∀ path, path.length ≤ n → follow next' r path = follow next r path) :
    Tree next' n r := fun q q' b hq hq' hb hb' => by
  rw [h q hq] at hb
  rw [h q' hq'] at hb'
  exact ht q q' b hq hq' hb hb'

/-- What is written outside of the tree. -/
theorem follow_of_nodes (h : ∀ b, Node next n r b → next' b = next b) (hlen : path.length ≤ n + 1) :
    follow next' r path = follow next r path := by
  refine follow_congr fun q i rest b hpath hq => ?_
  have hlen' := congrArg List.length hpath
  rw [List.length_append, List.length_cons] at hlen'
  rw [h b ⟨q, by omega, hq⟩]

variable [DecidableEq R] [DecidableEq I] {v : Option R} (ht : Tree next n r) (hq : follow next r q = some b)

include ht hq

/-- Writing an entry leaves alone what is not behind it. -/
theorem Tree.follow_write (hn : q.length ≤ n) (hlen : path.length ≤ n + 1) (hout : ¬ ∃ rest, path = q ++ i :: rest) :
    follow (Function.update next b (Function.update (next b) i v)) r path = follow next r path := by
  refine follow_congr fun q' j rest b' hpath hq' => ?_
  by_cases hb : b' = b
  · subst hb
    have hlen' := congrArg List.length hpath
    rw [List.length_append, List.length_cons] at hlen'
    obtain rfl := ht q' q b' (by omega) hn hq' hq
    have hj : j ≠ i := by
      rintro rfl
      exact hout ⟨rest, hpath⟩
    rw [Function.update_self, Function.update_of_ne hj]
  · rw [Function.update_of_ne hb]

variable (hn : q.length < n) (hi : next b i = none) (hc : ¬ Node next n r c) (hempty : ∀ j, next c j = none)

include hn hi hc hempty

/-- A new table with nothing in it, in an entry that was empty. -/
theorem Tree.follow_link (hlen : path.length ≤ n + 1) : follow (Function.update next b (Function.update (next b) i (some c))) r path =
    if path = q ++ [i] then some c else follow next r path := by
  by_cases hout : ∃ rest, path = q ++ i :: rest
  · obtain ⟨rest, rfl⟩ := hout
    have hq' : follow (Function.update next b (Function.update (next b) i (some c))) r q = some b := by
      rw [ht.follow_write hq hn.le (by omega), hq]
      rintro ⟨rest', heq⟩
      have := congrArg List.length heq
      simp at this
    have hcb : c ≠ b := by
      rintro rfl
      exact hc ⟨q, hn.le, hq⟩
    rw [follow_entry hq', follow_entry hq, hi, Function.update_self, Function.update_self]
    cases rest with
    | nil => rw [if_pos rfl]; rfl
    | cons j rest =>
      rw [if_neg fun heq => by simpa using List.append_cancel_left heq]
      change follow _ c (j :: rest) = none
      rw [follow, Function.update_of_ne hcb, hempty]
      rfl
  · rw [ht.follow_write hq hn.le hlen hout, if_neg]
    rintro rfl
    exact hout ⟨[], rfl⟩

theorem Tree.link : Tree (Function.update next b (Function.update (next b) i (some c))) n r := by
  intro p p' d hp hp' hd hd'
  rw [ht.follow_link hq hn hi hc hempty (by omega)] at hd hd'
  split_ifs at hd hd' with h1 h2
  · rw [h1, h2]
  · obtain rfl := Option.some.inj hd
    exact absurd ⟨p', hp', hd'⟩ hc
  · obtain rfl := Option.some.inj hd'
    exact absurd ⟨p, hp, hd⟩ hc
  · exact ht p p' d hp hp' hd hd'

end Tree

section Places

variable (next) (roots : Set R) (counts : List I → Prop)

open Classical in
/-- The resource at a place that counts. -/
noncomputable def val : R × List I → Option R := fun x => if x.1 ∈ roots ∧ counts x.2 then follow next x.1 x.2 else none

variable {next roots counts} {marked : R → Bool} {area pend : Set R}

theorem val_some : val next roots counts (r, path) = some b ↔ (r ∈ roots ∧ counts path) ∧ follow next r path = some b := by
  unfold val
  split_ifs with h
  · exact ⟨fun hf => ⟨h, hf⟩, And.right⟩
  · exact ⟨nofun, fun hf => absurd hf.1 h⟩

theorem val_congr (h : ∀ r path, r ∈ roots → counts path → follow next' r path = follow next r path) :
    val next' roots counts = val next roots counts := by
  funext ⟨r, path⟩
  unfold val
  split_ifs with hc
  · exact h r path hc.1 hc.2
  · rfl

theorem val_roots {roots' : Set R} (h : r ∈ roots' ↔ r ∈ roots) :
    val next roots' counts (r, path) = val next roots counts (r, path) := by
  unfold val
  by_cases hr : r ∈ roots ∧ counts path
  · rw [if_pos hr, if_pos ⟨h.mpr hr.1, hr.2⟩]
  · rw [if_neg hr, if_neg fun hr' => hr ⟨h.mp hr'.1, hr'.2⟩]

/-- A path that counts counts up to every place on it. -/
def Closed (counts : List I → Prop) : Prop := ∀ q rest, counts (q ++ rest) → counts q

theorem val_update [DecidableEq (R × List I)] {v : Option R} (hr : r ∈ roots) (hc : counts path) (hv : follow next' r path = v)
    (h : ∀ r' path', r' ∈ roots → counts path' → (r', path') ≠ (r, path) → follow next' r' path' = follow next r' path') :
    val next' roots counts = Function.update (val next roots counts) (r, path) v := by
  funext ⟨r', path'⟩
  by_cases hx : (r', path') = (r, path)
  · cases hx
    rw [Function.update_self, val, if_pos ⟨hr, hc⟩, hv]
  · rw [Function.update_of_ne hx]
    unfold val
    split_ifs with hcount
    · exact h r' path' hcount.1 hcount.2 hx
    · rfl

variable [DecidableEq R] [DecidableEq I] (hcl : Closed counts) (h : Owned (val next roots counts) marked area pend)

include hcl h

/-- A table of the forest is not pending and not free. -/
theorem table_owned (hr : r ∈ roots) (hc : counts (q ++ rest)) (hq : follow next r q = some b) :
    b ∈ area ∧ marked b = true ∧ b ∉ pend :=
  h.owned (val_some.mpr ⟨⟨hr, hcl q rest hc⟩, hq⟩)

/-- Whatever is written to a resource outside the forest, the forest is as before. -/
theorem val_scribble {f : I → Option R} (hb : b ∈ pend ∨ marked b = false) :
    val (Function.update next b f) roots counts = val next roots counts := by
  refine val_congr fun r path hr hc => follow_congr fun q i rest b' hpath hq => ?_
  obtain ⟨-, hm, hp⟩ := table_owned hcl h hr (hpath ▸ hc) hq
  have hne : b' ≠ b := by
    rintro rfl
    rcases hb with hb | hb
    · exact hp hb
    · rw [hb] at hm
      cases hm
  rw [Function.update_of_ne hne]

/-- Writing one entry of a table leaves every place as it is that is not behind this entry. -/
theorem follow_write {v : Option R} {r' : R} {path' : List I} (hr : r ∈ roots) (hq : follow next r q = some b) (hqc : counts q)
    (hr' : r' ∈ roots) (hc' : counts path') (hout : ¬ (r' = r ∧ ∃ rest, path' = q ++ i :: rest)) :
    follow (Function.update next b (Function.update (next b) i v)) r' path' = follow next r' path' := by
  refine follow_congr fun q' j rest b' hpath hq' => ?_
  by_cases hb : b' = b
  · subst hb
    have hplace := h.inj (val_some.mpr ⟨⟨hr', hcl q' (j :: rest) (hpath ▸ hc')⟩, hq'⟩) (val_some.mpr ⟨⟨hr, hqc⟩, hq⟩)
    obtain ⟨rfl, rfl⟩ := Prod.mk.inj hplace
    have hj : j ≠ i := by
      rintro rfl
      exact hout ⟨rfl, rest, hpath⟩
    rw [Function.update_self, Function.update_of_ne hj]
  · rw [Function.update_of_ne hb]

/-- Writing an entry whose place does not count. -/
theorem val_write_uncounted {v : Option R} (hr : r ∈ roots) (hq : follow next r q = some b) (hqc : counts q)
    (hn : ¬ counts (q ++ [i])) :
    val (Function.update next b (Function.update (next b) i v)) roots counts = val next roots counts := by
  refine val_congr fun r' path' hr' hc' => follow_write hcl h hr hq hqc hr' hc' ?_
  rintro ⟨-, rest, rfl⟩
  exact hn (hcl (q ++ [i]) rest (by simpa using hc'))

/-- Writing an entry with nothing behind it, before and after. -/
theorem val_write {v : Option R} (hr : r ∈ roots) (hq : follow next r q = some b) (hcq : counts (q ++ [i]))
    (hold : ∀ j rest, counts (q ++ i :: j :: rest) → ∀ c, next b i = some c → next c j = none)
    (hnew : ∀ j rest, counts (q ++ i :: j :: rest) → ∀ c, v = some c → c ≠ b ∧ next c j = none) :
    val (Function.update next b (Function.update (next b) i v)) roots counts =
      Function.update (val next roots counts) (r, q ++ [i]) v := by
  have hqc : counts q := hcl q [i] hcq
  have hq' : follow (Function.update next b (Function.update (next b) i v)) r q = some b := by
    rw [← hq]
    refine follow_write hcl h hr hq hqc hr hqc ?_
    rintro ⟨-, rest, hrest⟩
    have := congrArg List.length hrest
    simp at this
  refine val_update hr hcq ?_ fun r' path' hr' hc' hne => ?_
  · rw [follow_entry hq', Function.update_self, Function.update_self]
    cases v <;> rfl
  · by_cases hin : r' = r ∧ ∃ rest, path' = q ++ i :: rest
    · obtain ⟨rfl, rest, rfl⟩ := hin
      cases rest with
      | nil => exact absurd rfl hne
      | cons j rest =>
        rw [follow_entry hq', follow_entry hq, Function.update_self, Function.update_self]
        have hleft : (v.bind fun c => follow (Function.update next b (Function.update (next b) i v)) c (j :: rest)) = none := by
          cases hv : v with
          | none => rfl
          | some c =>
            obtain ⟨hcb, hcj⟩ := hnew j rest hc' c hv
            simp only [Option.bind_some, follow, Function.update_of_ne hcb, hcj, Option.bind_none]
        have hright : ((next b i).bind fun c => follow next c (j :: rest)) = none := by
          cases hv : next b i with
          | none => rfl
          | some c => simp only [Option.bind_some, follow, hold j rest hc' c hv, Option.bind_none]
        rw [hleft, hright]
    · exact follow_write hcl h hr hq hqc hr' hc' hin

/-- An empty table that is pending becomes a root. -/
theorem owned_root (h0 : counts []) (hc : c ∈ pend) (hempty : ∀ i, next c i = none) :
    Owned (val next (insert c roots) counts) marked area (pend \ {c}) := by
  have hnil : counts ([] ++ []) := h0
  have hnot : c ∉ roots := fun hin => (table_owned hcl h hin hnil (follow_nil (r := c))).2.2 hc
  have hnone : val next roots counts (c, []) = none := by
    unfold val
    rw [if_neg fun hin => hnot hin.1]
  have hval : val next (insert c roots) counts = Function.update (val next roots counts) (c, []) (some c) := by
    funext ⟨r, path⟩
    by_cases hx : (r, path) = (c, [])
    · cases hx
      rw [Function.update_self]
      exact val_some.mpr ⟨⟨Set.mem_insert _ _, h0⟩, rfl⟩
    · rw [Function.update_of_ne hx]
      by_cases hrc : r = c
      · subst hrc
        have hpath : follow next r path = none := by
          cases path with
          | nil => exact absurd rfl hx
          | cons i is => simp only [follow, hempty, Option.bind_none]
        unfold val
        rw [hpath]
        simp
      · exact val_roots (by simp [hrc])
  rw [hval]
  exact h.attach hc hnone

omit hcl in
/-- A root is taken out of the forest; what was found at its places is pending. -/
theorem owned_uproot (hr : r ∈ roots) :
    Owned (val next (roots \ {r}) counts) marked area (pend ∪ {b | ∃ path, counts path ∧ follow next r path = some b}) := by
  have hother : ∀ r' path, r' ≠ r → val next (roots \ {r}) counts (r', path) = val next roots counts (r', path) :=
    fun r' path hne => val_roots (by simp [hne])
  have hgone : ∀ path, val next (roots \ {r}) counts (r, path) = none := fun path => if_neg fun hx => hx.1.2 rfl
  have hset : {b | ∃ x, val next roots counts x = some b ∧ val next (roots \ {r}) counts x = none} =
      {b | ∃ path, counts path ∧ follow next r path = some b} := by
    ext b
    constructor
    · rintro ⟨⟨r', path⟩, hx, hn⟩
      by_cases hin : r' = r
      · subst hin
        obtain ⟨⟨-, hc⟩, hf⟩ := val_some.mp hx
        exact ⟨path, hc, hf⟩
      · rw [hother r' path hin, hx] at hn
        cases hn
    · rintro ⟨path, hc, hf⟩
      exact ⟨(r, path), val_some.mpr ⟨⟨hr, hc⟩, hf⟩, hgone path⟩
  rw [← hset]
  refine h.abandon fun ⟨r', path⟩ => ?_
  by_cases hin : r' = r
  · exact .inr (hin ▸ hgone path)
  · exact .inl (hother r' path hin)

end Places

end Forest
