import Xv6.Sanity.Tame
import Xv6.Spec.Sysfile

/-! What the calls do to directories: they free whole directories, add an entry in a free place, or clear an entry. -/

namespace Xv6.Fs

/-- The calls that may add an entry to a directory. -/
def Call.Links : Call → Prop
  | .open _ _ omode => isSet omode O_CREATE = true
  | .mkdir .. | .mknod .. | .link .. => True
  | _ => False

def Call.Unlinks : Call → Prop
  | .unlink .. => True
  | _ => False

/-- What a call may do to the entries of a directory: what `dirlink` does, or what the write of `unlink` does. -/
inductive DirChange (c : Call) (ents : List Dirent) : List Dirent → Prop
  | same : DirChange c ents ents
  | linked {k : ℕ} {de : Dirent} (hc : c.Links) (hk : k ≤ ents.length) (hfree : ∀ e, ents[k]? = some e → e.inum = 0) :
      DirChange c ents (setEnt ents k de)
  | cleared {k : ℕ} (hc : c.Unlinks) : DirChange c ents (setEnt ents k emptyEnt)

/-- The directories that are left have changed as the call may change them. -/
def Dirs (c : Call) (N N' : ℕ → Node) : Prop :=
  ∀ i, (N i).type = T_DIR → (N' i).type = T_DIR → DirChange c (N i).ents (N' i).ents

/-- Nodes are as they were or freed. -/
def Shed (N N' : ℕ → Node) : Prop := ∀ i, N' i = N i ∨ (N' i).type = 0

section Shed

variable {n i d k : ℕ} {L : Multiset (Ip × ℕ)} {N N' N'' : ℕ → Node} {c : Call} {de : Dirent} {ip : Ip} {name : List UInt8}
  {type : Int16}

theorem Shed.refl : Shed N N := fun _ => .inl rfl

theorem Shed.trans (h : Shed N N') (h' : Shed N' N'') : Shed N N'' := fun i => by
  rcases h' i with hi | hi
  · rw [hi]
    exact h i
  · exact .inr hi

theorem shed_release : Shed N (release N L i) := fun j => by
  unfold release
  split_ifs
  · by_cases hj : j = i
    · subst hj
      rw [Function.update_self]
      exact .inr rfl
    · exact .inl (Function.update_of_ne hj _ _)
  · exact .inl rfl

theorem shed_unmade (h : Unmade N N') : Shed N N' := fun j => by
  rcases h with rfl | ⟨i, -, rfl⟩
  · exact .inl rfl
  · by_cases hj : j = i
    · subst hj
      rw [Function.update_self]
      exact .inr rfl
    · exact .inl (Function.update_of_ne hj _ _)

theorem Shed.dirs (h : Shed N N') : Dirs c N N' := fun i _ hd => by
  rcases h i with hi | hi
  · rw [hi]
    exact .same
  · rw [hi] at hd
    exact absurd hd (by decide)

theorem Dirs.shed (h : Dirs c N N') (h' : Shed N' N'') : Dirs c N N'' := fun i hd hd' => by
  rcases h' i with hi | hi
  · rw [hi] at hd' ⊢
    exact h i hd hd'
  · rw [hi] at hd'
    exact absurd hd' (by decide)

theorem Dirs.relink (h : Dirs c N N') (m : Int16) : Dirs c N (relink N' i m) := fun j hd hd' => by
  rw [relink_type] at hd'
  rw [relink_ents]
  exact h j hd hd'

theorem dirs_putEnt (h : DirChange c (N d).ents (setEnt (N d).ents k de)) : Dirs c N (putEnt N d k de) := fun j hd _ => by
  by_cases hj : j = d
  · subst hj
    rw [putEnt_self]
    exact h
  · rw [putEnt_of_ne hj]
    exact .same

/-- `create` changes the directory it adds the entry to, and no other. -/
theorem dirs_made (hc : c.Links) (hv : Vacant n N d i k name) : Dirs c N (made N d i k name type) := by
  have hput : Dirs c N (putEnt (Function.update N i (newNode type i d (N i).gen)) d k ⟨UInt16.ofNat i, stored name⟩) := by
    intro j hd hd'
    have hji : j ≠ i := by
      rintro rfl
      exact absurd (hv.free.symm.trans hd) (by decide)
    by_cases hj : j = d
    · subst hj
      rw [putEnt_self, Function.update_of_ne hji]
      exact .linked hc hv.entry hv.empty
    · rw [putEnt_of_ne hj, Function.update_of_ne hji]
      exact .same
  unfold made
  split_ifs
  · exact hput.relink 1
  · exact hput

theorem dirs_linked (hc : c.Links) (hs : Spare N d k name) : Dirs c N (release (putEnt (relink N i 1) d k de) L i) := by
  have hlink : Dirs c N (putEnt (relink N i 1) d k de) := fun j hd hd' => by
    by_cases hj : j = d
    · subst hj
      rw [putEnt_self, relink_ents]
      exact .linked hc hs.entry hs.empty
    · rw [putEnt_of_ne hj, relink_ents]
      exact .same
  exact hlink.shed shed_release

theorem dirs_unlinked (hc : c.Unlinks) : Dirs c N (unlinked N L ip d i k) := by
  have hput : Dirs c N (unnamed N d i k) := by
    unfold unnamed
    split_ifs
    · exact (dirs_putEnt (.cleared hc)).relink _
    · exact dirs_putEnt (.cleared hc)
  exact ((hput.shed shed_release).relink _).shed shed_release

end Shed

end Xv6.Fs
