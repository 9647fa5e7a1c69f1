import Xv6.Sanity.Links

/-! A directory without duplicate names as a finite map from names to inode numbers. Names are told apart by what `strncpy`
keeps of them. -/

namespace Xv6.Fs

variable {ents : List Dirent} {name name' : List UInt8} {k i : ℕ} {de : Dirent}

/-- No two entries in use have the same name. -/
def Distinct (ents : List Dirent) : Prop :=
  ents.Pairwise fun de e => de.inum ≠ 0 → e.inum ≠ 0 → stored de.name ≠ stored e.name

instance (ents : List Dirent) : Decidable (Distinct ents) := inferInstanceAs (Decidable (List.Pairwise _ _))

theorem distinct_iff : Distinct ents ↔ ∀ (j k : ℕ) (de e : Dirent), ents[j]? = some de → ents[k]? = some e →
    de.inum ≠ 0 → e.inum ≠ 0 → stored de.name = stored e.name → j = k := by
  rw [Distinct, List.pairwise_iff_getElem]
  constructor
  · intro h j k de e hj hk hde he heq
    obtain ⟨hjl, rfl⟩ := List.getElem?_eq_some_iff.mp hj
    obtain ⟨hkl, rfl⟩ := List.getElem?_eq_some_iff.mp hk
    rcases Nat.lt_trichotomy j k with hlt | rfl | hlt
    · exact absurd heq (h j k hjl hkl hlt hde he)
    · rfl
    · exact absurd heq.symm (h k j hkl hjl hlt he hde)
  · intro h j k hj hk hlt hde he heq
    have := h j k _ _ (List.getElem?_eq_getElem hj) (List.getElem?_eq_getElem hk) hde he heq
    omega

/-- The inode number that a directory has for a name. -/
def mapOf (ents : List Dirent) (name : List UInt8) : Option ℕ := (lookup ents name).map fun de => de.inum.toNat

theorem lookup_eq_some_iff (hd : Distinct ents) :
    lookup ents name = some de ↔ ∃ k : ℕ, ents[k]? = some de ∧ Matches name de := by
  constructor
  · intro h
    obtain ⟨k, hk⟩ := List.getElem?_of_mem (List.mem_of_find?_eq_some h)
    have hm := List.find?_some (p := fun de => decide (Matches name de)) h
    exact ⟨k, hk, of_decide_eq_true hm⟩
  · rintro ⟨k, hk, hm⟩
    refine lookup_some hk hm fun m hlt e he hm' => ?_
    have hjk := distinct_iff.mp hd m k e de he hk hm'.1 hm.1 (hm'.2.symm.trans hm.2)
    omega

section Insert

variable (hd : Distinct ents) (hk : k ≤ ents.length) (hnone : lookup ents name = none) (hname : stored de.name = stored name)

include hd hk hnone hname

theorem distinct_insert : Distinct (setEnt ents k de) := by
  have hfresh : ∀ (m : ℕ) e, ents[m]? = some e → e.inum ≠ 0 → stored e.name ≠ stored name := fun m e he hz heq =>
    lookup_eq_none_iff.mp hnone m e he ⟨hz, heq.symm⟩
  refine distinct_iff.mpr fun a b x y hx hy hxz hyz heq => ?_
  rw [setEnt_getElem? hk] at hx hy
  split_ifs at hx hy with ha hb hb
  · rw [ha, hb]
  · cases hx
    exact absurd (heq.symm.trans hname) (hfresh b y hy hyz)
  · cases hy
    exact absurd (heq.trans hname) (hfresh a x hx hxz)
  · exact distinct_iff.mp hd a b x y hx hy hxz hyz heq

theorem lookup_insert (hfree : ∀ e, ents[k]? = some e → e.inum = 0) (hde : de.inum ≠ 0) (name' : List UInt8) :
    lookup (setEnt ents k de) name' = if stored name' = stored name then some de else lookup ents name' := by
  have hd' := distinct_insert hd hk hnone hname
  split_ifs with heq
  · refine (lookup_eq_some_iff hd').mpr ⟨k, ?_, hde, heq.trans hname.symm⟩
    rw [setEnt_getElem? hk, if_pos rfl]
  · refine Option.ext fun x => ?_
    rw [lookup_eq_some_iff hd', lookup_eq_some_iff hd]
    refine exists_congr fun m => and_congr_left fun hm => ?_
    rw [setEnt_getElem? hk]
    split_ifs with hmk
    · subst hmk
      refine ⟨fun hx => ?_, fun hx => absurd (hfree x hx) hm.1⟩
      cases hx
      exact absurd (hm.2.trans hname) heq
    · rfl

end Insert

section Erase

variable (hd : Distinct ents) (hk : ents[k]? = some de) (hm : Matches name de)

include hd hk

theorem distinct_erase : Distinct (setEnt ents k emptyEnt) := by
  have hle := (List.getElem?_eq_some_iff.mp hk).1.le
  refine distinct_iff.mpr fun a b x y hx hy hxz hyz heq => ?_
  rw [setEnt_getElem? hle] at hx hy
  split_ifs at hx hy with ha hb hb
  · rw [ha, hb]
  · cases hx
    exact absurd rfl hxz
  · cases hy
    exact absurd rfl hyz
  · exact distinct_iff.mp hd a b x y hx hy hxz hyz heq

include hm

theorem lookup_erase (name' : List UInt8) :
    lookup (setEnt ents k emptyEnt) name' = if stored name' = stored name then none else lookup ents name' := by
  have hle := (List.getElem?_eq_some_iff.mp hk).1.le
  have hd' := distinct_erase hd hk
  have hother : ∀ {m : ℕ} {x : Dirent}, (setEnt ents k emptyEnt)[m]? = some x → Matches name' x → m ≠ k ∧ ents[m]? = some x := by
    intro m x hx hm'
    rw [setEnt_getElem? hle] at hx
    split_ifs at hx with hmk
    · cases hx
      exact absurd rfl hm'.1
    · exact ⟨hmk, hx⟩
  split_ifs with heq
  · refine lookup_none fun m x hx hm' => ?_
    obtain ⟨hmk, hx⟩ := hother hx hm'
    exact hmk (distinct_iff.mp hd m k x de hx hk hm'.1 hm.1 (hm'.2.symm.trans (heq.trans hm.2)))
  · refine Option.ext fun x => ?_
    rw [lookup_eq_some_iff hd', lookup_eq_some_iff hd]
    refine exists_congr fun m => and_congr_left fun hm' => ⟨fun hx => (hother hx hm').2, fun hx => ?_⟩
    rw [setEnt_getElem? hle, if_neg]
    · exact hx
    · rintro rfl
      rw [hk] at hx
      cases hx
      exact heq (hm'.2.trans hm.2.symm)

end Erase

end Xv6.Fs
