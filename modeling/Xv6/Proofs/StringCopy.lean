import Xv6.Sanity.Pagetable

/-! `copyinstr` on a page table word by word: it reads the bytes of user pages one by one, up to a NUL, to `max`, or to a page
that is not the user's. -/

namespace Xv6.Pagetable

open Wp Vm

variable {s : Mem} {root : ℕ} {ram : Word → Option UInt8} {f g : ℕ → Option UInt8} {n m : ℕ}

section Strings

/-- Bytes up to the first NUL, `n` at most; without one, or after a byte that is not there, it is not a string. -/
def readString (f : ℕ → Option UInt8) : ℕ → Bool × List UInt8
  | 0 => (false, [])
  | n + 1 =>
    match f 0 with
    | none => (false, [])
    | some c => if c = 0 then (true, [0]) else ((readString (fun j => f (j + 1)) n).1, c :: (readString (fun j => f (j + 1)) n).2)

theorem readString_none (h : f 0 = none) : readString f n = (false, []) := by
  cases n with
  | zero => rfl
  | succ n => rw [readString, h]

/-- The first NUL is at `k`, and all bytes before it are there. -/
def FirstNul (f : ℕ → Option UInt8) (k : ℕ) : Prop := f k = some 0 ∧ ∀ j < k, ∃ c, f j = some c ∧ c ≠ 0

theorem readString_length (f : ℕ → Option UInt8) (n : ℕ) : (readString f n).2.length ≤ n := by
  induction n generalizing f with
  | zero => exact le_rfl
  | succ n ih =>
    rw [readString]
    split
    · exact Nat.zero_le _
    · split_ifs
      · exact Nat.succ_le_succ (Nat.zero_le _)
      · exact Nat.succ_le_succ (ih _)

theorem firstNul_succ {k : ℕ} : FirstNul f (k + 1) ↔ (∃ c, f 0 = some c ∧ c ≠ 0) ∧ FirstNul (fun j => f (j + 1)) k := by
  constructor
  · rintro ⟨hk, hlt⟩
    exact ⟨hlt 0 (Nat.succ_pos k), hk, fun j hj => hlt (j + 1) (Nat.succ_lt_succ hj)⟩
  · rintro ⟨h0, hk, hlt⟩
    refine ⟨hk, fun j hj => ?_⟩
    cases j with
    | zero => exact h0
    | succ j => exact hlt j (Nat.lt_of_succ_lt_succ hj)

theorem readString_found {k : ℕ} (hk : k < n) (h : FirstNul f k) :
    (readString f n).1 = true ∧ (readString f n).2.map some = (List.range (k + 1)).map f := by
  induction n generalizing f k with
  | zero => omega
  | succ n ih =>
    cases k with
    | zero =>
      rw [readString, h.1]
      exact ⟨rfl, by simp [h.1]⟩
    | succ k =>
      obtain ⟨⟨c, hc, hne⟩, hrest⟩ := firstNul_succ.mp h
      obtain ⟨hok, hout⟩ := ih (Nat.lt_of_succ_lt_succ hk) hrest
      simp only [readString, hc, if_neg hne]
      refine ⟨hok, ?_⟩
      conv_rhs => rw [List.range_succ_eq_map, List.map_cons, List.map_map, hc]
      rw [List.map_cons, hout]
      rfl

theorem firstNul_of_readString (h : (readString f n).1 = true) : ∃ k < n, FirstNul f k := by
  induction n generalizing f with
  | zero => cases h
  | succ n ih =>
    rw [readString] at h
    cases hc : f 0 with
    | none =>
      rw [hc] at h
      cases h
    | some c =>
      simp only [hc] at h
      split_ifs at h with h0
      · exact ⟨0, Nat.succ_pos n, by rw [hc, h0], nofun⟩
      · obtain ⟨k, hk, hnul⟩ := ih h
        exact ⟨k + 1, Nat.succ_lt_succ hk, firstNul_succ.mpr ⟨⟨c, hc, h0⟩, hnul⟩⟩

/-- Where the first `n` bytes are there, the rest is read after them. -/
theorem readString_add (h : ∀ j < n, f j ≠ none) : readString f (n + m) =
    if (readString f n).1 then (true, (readString f n).2)
    else ((readString (fun j => f (n + j)) m).1, (readString f n).2 ++ (readString (fun j => f (n + j)) m).2) := by
  induction n generalizing f with
  | zero => simp [readString]
  | succ n ih =>
    obtain ⟨c, hc⟩ := Option.ne_none_iff_exists'.mp (h 0 (Nat.succ_pos n))
    rw [Nat.add_right_comm, readString, readString, hc]
    by_cases h0 : c = 0
    · simp only [if_pos h0, if_true]
    · simp only [if_neg h0, ih fun j hj => h (j + 1) (Nat.succ_lt_succ hj)]
      split_ifs
      · rfl
      · simp only [Nat.add_right_comm n, List.cons_append]

end Strings

section Copy

/-- The byte of a user page at a virtual address. -/
def userAt (s : Mem) (root : ℕ) (ram : Word → Option UInt8) (va : ℕ) : Option UInt8 :=
  match mapOf s root (va / PGSIZE) with
  | some (pa, flags) => if flags &&& PTE_U ≠ 0 then ram (pa + BitVec.ofNat 64 (va % PGSIZE)) else none
  | none => none

/-- What the table maps for the user can be read, and is not at physical address 0. -/
structure Readable (s : Mem) (root : ℕ) (ram : Word → Option UInt8) : Prop where
  ram : ∀ v pa flags, mapOf s root v = some (pa, flags) → flags &&& PTE_U ≠ 0 → ∀ t < PGSIZE, ram (pa + BitVec.ofNat 64 t) ≠ none
  pos : ∀ v pa flags, mapOf s root v = some (pa, flags) → flags &&& PTE_U ≠ 0 → pa ≠ 0

theorem copyBytes_eq {p : Word} (h : ∀ j < n, ram (p + BitVec.ofNat 64 j) = f j ∧ f j ≠ none) :
    copyBytes ram n p s = .ok (readString f n, s) := by
  induction n generalizing p f with
  | zero => rfl
  | succ n ih =>
    obtain ⟨h0, hne⟩ := h 0 (Nat.succ_pos n)
    obtain ⟨c, hc⟩ := Option.ne_none_iff_exists'.mp hne
    rw [BitVec.add_zero, hc] at h0
    rw [copyBytes, readString, h0, hc]
    dsimp only
    split_ifs with hz
    · rfl
    · have hrest := @ih (fun j => f (j + 1)) (p + 1) fun j hj => by
        rw [BitVec.add_assoc, show (1 : Word) + BitVec.ofNat 64 j = BitVec.ofNat 64 (j + 1) by rw [Nat.add_comm]; exact (BitVec.ofNat_add ..).symm]
        exact h (j + 1) (Nat.succ_lt_succ hj)
      rw [bind_ok hrest]
      rfl

theorem copyinstrFrom_zero (fuel : ℕ) (a : Word) : copyinstrFrom ram root fuel a 0 = pure (false, []) := by
  cases fuel <;> rfl

/-- The start of the page, and the offset in it. -/
theorem page_offset (a : Word) :
    (PGROUNDDOWN a).toNat = a.toNat / PGSIZE * PGSIZE ∧ (a - PGROUNDDOWN a).toNat = a.toNat % PGSIZE := by
  have hmod : (a % 4096).toNat = a.toNat % PGSIZE := BitVec.toNat_umod
  have hdiv := Nat.div_add_mod' a.toNat PGSIZE
  have hle : a.toNat % PGSIZE ≤ a.toNat := Nat.mod_le _ _
  have hdown : (PGROUNDDOWN a).toNat = a.toNat / PGSIZE * PGSIZE := by
    rw [PGROUNDDOWN, BitVec.toNat_sub_of_le (by rw [BitVec.le_def, hmod]; exact hle), hmod]
    omega
  refine ⟨hdown, ?_⟩
  rw [BitVec.toNat_sub_of_le (by rw [BitVec.le_def, hdown]; omega), hdown]
  omega

/-- The bytes of one page. -/
theorem userAt_page {a : ℕ} {pa flags : Word} (hmap : mapOf s root (a / PGSIZE) = some (pa, flags)) (hu : flags &&& PTE_U ≠ 0)
    {j : ℕ} (hj : a % PGSIZE + j < PGSIZE) : userAt s root ram (a + j) = ram (pa + BitVec.ofNat 64 (a % PGSIZE + j)) := by
  have hpage : (a + j) / PGSIZE = a / PGSIZE ∧ (a + j) % PGSIZE = a % PGSIZE + j := by
    rw [PGSIZE] at *
    omega
  rw [userAt, hpage.1, hpage.2, hmap]
  exact if_pos hu

theorem copyinstrFrom_eq (h : Readable s root ram) (fuel : ℕ) (a : Word) (max : ℕ) (hfuel : max ≤ fuel) :
    copyinstrFrom ram root fuel a max s = .ok (readString (fun j => userAt s root ram (a.toNat + j)) max, s) := by
  induction fuel generalizing a max with
  | zero =>
    obtain rfl : max = 0 := by omega
    rfl
  | succ fuel ih =>
    by_cases hmax : max = 0
    · rw [hmax, copyinstrFrom_zero]
      rfl
    obtain ⟨hdown, hoff⟩ := page_offset a
    have hmod : a.toNat % PGSIZE < PGSIZE := Nat.mod_lt _ (by decide)
    obtain ⟨pa0, s', hwalk, rfl, hpa0⟩ := wp_returns (walkaddr_spec (s := s) root (PGROUNDDOWN a))
    rw [hdown, Nat.mul_div_cancel _ (by decide : 0 < PGSIZE)] at hpa0
    rw [copyinstrFrom, if_neg hmax, bind_ok hwalk]
    have hpage : (pa0 = 0 ∧ userAt s' root ram a.toNat = none) ∨
        pa0 ≠ 0 ∧ ∃ flags, mapOf s' root (a.toNat / PGSIZE) = some (pa0, flags) ∧ flags &&& PTE_U ≠ 0 := by
      rw [userAt]
      cases hmap : mapOf s' root (a.toNat / PGSIZE) with
      | none =>
        rw [hmap] at hpa0
        exact .inl ⟨hpa0, rfl⟩
      | some e =>
        obtain ⟨pa, flags⟩ := e
        rw [hmap] at hpa0
        dsimp only at hpa0 ⊢
        split_ifs at hpa0 ⊢ with hu
        · subst hpa0
          exact .inr ⟨h.pos _ _ _ hmap hu, flags, rfl, hu⟩
        · exact .inl ⟨hpa0, rfl⟩
    rcases hpage with ⟨hzero, hnone⟩ | ⟨hne, flags, hmap, hu⟩
    · rw [if_pos hzero, readString_none hnone]
      rfl
    obtain ⟨n, hn⟩ : ∃ n, min (PGSIZE - a.toNat % PGSIZE) max = n := ⟨_, rfl⟩
    rw [if_neg hne, BitVec.toNat_sub_of_le (by rw [BitVec.le_def, hoff]; exact hmod.le), hoff,
      show BitVec.toNat (4096 : Word) = PGSIZE from rfl, hn]
    have hbytes : ∀ j < n, ram (pa0 + (a - PGROUNDDOWN a) + BitVec.ofNat 64 j) = userAt s' root ram (a.toNat + j) ∧
        userAt s' root ram (a.toNat + j) ≠ none := by
      intro j hj
      have hin : a.toNat % PGSIZE + j < PGSIZE := by omega
      have hoffset : a - PGROUNDDOWN a = BitVec.ofNat 64 (a.toNat % PGSIZE) := by
        rw [← hoff, BitVec.ofNat_toNat, BitVec.setWidth_eq]
      rw [userAt_page hmap hu hin, BitVec.add_assoc, hoffset, ← BitVec.ofNat_add]
      exact ⟨rfl, h.ram _ _ _ hmap hu _ hin⟩
    rw [bind_ok (copyBytes_eq hbytes)]
    have hsplit := @readString_add (fun j => userAt s' root ram (a.toNat + j)) n (max - n) fun j hj => (hbytes j hj).2
    rw [Nat.add_sub_cancel' (by omega)] at hsplit
    rw [hsplit]
    dsimp only
    split_ifs with hgot
    · rfl
    have hrest : copyinstrFrom ram root fuel (PGROUNDDOWN a + 4096) (max - n) s' =
        .ok (readString (fun j => userAt s' root ram (a.toNat + (n + j))) (max - n), s') := by
      rcases Nat.eq_zero_or_pos (max - n) with hzero | hpos
      · rw [hzero, copyinstrFrom_zero]
        rfl
      · have hlt : a.toNat / PGSIZE < MAXPAGES := by
          by_contra hge
          rw [mapOf, if_neg hge] at hmap
          cases hmap
        have hdiv := Nat.div_add_mod' a.toNat PGSIZE
        have hnext : (PGROUNDDOWN a + 4096).toNat = a.toNat + n := by
          rw [BitVec.toNat_add, hdown, Nat.mod_eq_of_lt]
          · change a.toNat / PGSIZE * PGSIZE + PGSIZE = _
            omega
          · change a.toNat / PGSIZE * PGSIZE + PGSIZE < _
            simp only [MAXPAGES, MAXVA, PGSIZE] at *
            omega
        rw [ih _ _ (by omega), hnext]
        simp only [Nat.add_assoc]
    rw [bind_ok hrest]
    rfl

end Copy

/-- **`copyinstr` on mapped memory.** For every page table that maps no user page at physical address 0, every address and every
`max`: it reads user pages only, stores at most `max` bytes, and returns 0 exactly if a NUL comes within `max` bytes of user
pages; then it stores the bytes up to it. -/
theorem copyinstr_string (h : Readable s root ram) (srcva : Word) (max : ℕ) :
    ∃ ok out, copyinstr ram root srcva max s = .ok ((ok, out), s) ∧ out.length ≤ max ∧
      (ok = true ↔ ∃ k < max, FirstNul (fun j => userAt s root ram (srcva.toNat + j)) k) ∧
      ∀ k < max, FirstNul (fun j => userAt s root ram (srcva.toNat + j)) k →
        out.map some = (List.range (k + 1)).map fun j => userAt s root ram (srcva.toNat + j) := by
  refine ⟨_, _, copyinstrFrom_eq h max srcva max le_rfl, readString_length _ max, ⟨firstNul_of_readString, ?_⟩, ?_⟩
  · rintro ⟨k, hk, hnul⟩
    exact (readString_found hk hnul).1
  · exact fun k hk hnul => (readString_found hk hnul).2

/-- A table of three pages, with the page at 0 mapped for the user to `pa`. -/
def onePage (pa : Word) : Mem where
  freelist := []
  mem b i :=
    if i ≠ 0 then 0
    else if b = 0x80001000 then PA2PTE 0x80002000 ||| PTE_V
    else if b = 0x80002000 then PA2PTE 0x80003000 ||| PTE_V
    else if b = 0x80003000 then PA2PTE pa ||| PTE_V ||| PTE_R ||| PTE_U
    else 0

theorem onePage_pos {v : ℕ} {pa flags : Word} (h : mapOf (onePage 0x80004000) root v = some (pa, flags)) : pa ≠ 0 := by
  have hentry : ∀ b i, entryOf ((onePage 0x80004000).mem b i) = some (pa, flags) → pa ≠ 0 := by
    intro b i he
    simp only [onePage] at he
    split_ifs at he
    · cases he
    · cases he
      decide
    · cases he
      decide
    · cases he
      decide
    · cases he
  rw [mapOf] at h
  split_ifs at h
  obtain ⟨loc, -, he⟩ := Option.bind_eq_some_iff.mp h
  exact hentry loc.1 loc.2 he

/-- The string `hh` at the start of the page. -/
theorem copyinstr_string_hh : ∃ out, copyinstr (fun p => some (if p = 0x80004002 then 0 else 104)) 0x80001000 0 10
    (onePage 0x80004000) = .ok ((true, out), onePage 0x80004000) := by
  have hread : Readable (onePage 0x80004000) 0x80001000 fun p => some (if p = 0x80004002 then 0 else 104) :=
    ⟨fun _ _ _ _ _ _ _ => Option.some_ne_none _, fun _ _ _ h _ => onePage_pos h⟩
  obtain ⟨ok, out, hrun, -, hiff, -⟩ := copyinstr_string hread 0 10
  have hok : ok = true := hiff.mpr ⟨2, by decide, by decide +kernel, fun j hj => ⟨104, by interval_cases j <;> decide +kernel, by decide⟩⟩
  exact ⟨out, by rw [hrun, hok]⟩

/-- A user page at physical address 0 is taken for no page. -/
theorem copyinstr_physical_zero :
    copyinstr (fun _ => some 0) 0x80001000 0 10 (onePage 0) = .ok ((false, []), onePage 0) ∧
    FirstNul (fun j => userAt (onePage 0) 0x80001000 (fun _ => some 0) j) 0 := by
  refine ⟨?_, by decide +kernel, nofun⟩
  rfl

end Xv6.Pagetable
