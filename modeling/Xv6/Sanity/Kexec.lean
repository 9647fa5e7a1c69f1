import Xv6.Sanity.Balance
import Xv6.Sanity.Contents
import Xv6.Sanity.ExecOps
import Xv6.Sanity.SysCalls
import Xv6.Spec.Kexec

/-! What `kexec` does to the file system, the memory and the process. The lemmas about loading are for any way in which the
file can be read: `Reads` says what is known about that. -/

namespace Xv6.Exec

open Wp Fs Vm

section Rules

variable {σ : St} {E : Stop → Prop} {α : Type}

@[simp] theorem wp_file {m : FsM α} {Q : α → St → Prop} :
    wp (file m) Q E σ ↔ wp m (fun a s => Q a { σ with fs := s }) (fun e => E (.fs e)) σ.fs := by
  simp only [wp, file]
  cases m σ.fs with
  | ok r => rfl
  | error e => rfl

@[simp] theorem wp_proc {m : Vm.M α} {Q : α → St → Prop} :
    wp (proc m) Q E σ ↔ wp m (fun a s => Q a { σ with vm := s }) (fun msg => E (.panic msg)) σ.vm := by
  simp only [wp, proc]
  cases m σ.vm with
  | ok r => rfl
  | error e => rfl

@[simp] theorem wp_mem {m : VmM α} {Q : α → St → Prop} : wp (mem m) Q E σ ↔
    wp m (fun a t => Q a { σ with vm := { σ.vm with m := t } }) (fun msg => E (.panic msg)) σ.vm.m := by
  rw [mem, wp_proc, wp_vm]

/-- The state with another file system and another memory. -/
def St.put (σ : St) (s : Fs.State) (t : Mem) : St := ⟨s, { σ.vm with m := t }, σ.name⟩

end Rules

section Fields

theorem headerField_lt (b : List UInt8) (o n : ℕ) : headerField b o n < 256 ^ n := by
  have hfold : ∀ l : List UInt8, l.foldr (fun b x => b.toNat + 256 * x) 0 < 256 ^ l.length := by
    intro l
    induction l with
    | nil => simp
    | cons b l ih =>
      have hb := b.toNat_lt
      rw [List.foldr_cons, List.length_cons, pow_succ]
      omega
  refine (hfold _).trans_le (Nat.pow_le_pow_right (by decide) ?_)
  exact List.length_take_le ..

/-- Two 64-bit numbers whose sum does not wrap around. -/
theorem add_mod_of_not_lt {x y : ℕ} (hx : x < 2 ^ 64) (hy : y < 2 ^ 64) (h : ¬ (x + y) % 2 ^ 64 < x) :
    (x + y) % 2 ^ 64 = x + y := by
  omega

end Fields

section Load

variable {sb : Superblock} {K : Kernel} {ip : Ip} {E : Stop → Prop} {I : Fs.State → Prop} {det : Prop} {c : List UInt8}

/-- Reading the file `ip` keeps `I` and stops only as `E` allows; if `det`, the bytes are those of `c`. -/
structure Reads (sb : Superblock) (ip : Ip) (I : Fs.State → Prop) (det : Prop) (c : List UInt8) (E : Stop → Prop) : Prop where
  small : det → c.length < 2 ^ 32
  read : ∀ s off n, I s → wp (readi sb ip .kernel off n) (fun r s' => I s' ∧ (det → r = readOf c off n))
    (fun e => E (.fs e)) s

/-- The `n` bytes of `c` from `off` on, as far as there are. -/
def slice (c : List UInt8) (off n : ℕ) : List UInt8 := (c.drop off).take n

@[simp] theorem slice_zero (c : List UInt8) (off : ℕ) : slice c off 0 = [] := List.take_zero

theorem slice_add (c : List UInt8) (off m n : ℕ) : slice c off (m + n) = slice c off m ++ slice c (off + m) n := by
  rw [slice, List.take_add, List.drop_drop]
  rfl

theorem length_slice {off n : ℕ} (h : off + n ≤ c.length) : (slice c off n).length = n := by
  rw [slice, List.length_take, List.length_drop]
  omega

/-- A read of as many bytes as were asked for. -/
theorem readOf_full {off n : UInt32} {r : ℤ × List UInt8} (h : r = readOf c off n) (hr : r.1 = n.toNat) (hn : 0 < n.toNat) :
    r.2 = slice c off.toNat n.toNat ∧ off.toNat + n.toNat ≤ c.length := by
  subst h
  rw [readOf] at hr ⊢
  split_ifs at hr ⊢ with hbad
  · omega
  · refine ⟨rfl, ?_⟩
    simp only [List.length_take, List.length_drop, Nat.cast_inj] at hr
    omega

/-- How many bytes of a segment of `sz` bytes go to the page at `i`. -/
theorem pass_toNat {sz i : UInt32} (h : i.toNat ≤ sz.toNat) :
    (if sz - i < Fs.PGSIZE then sz - i else Fs.PGSIZE).toNat = min (sz.toNat - i.toNat) Vm.PGSIZE := by
  have hsub : (sz - i).toNat = sz.toNat - i.toNat := UInt32.toNat_sub_of_le _ _ (UInt32.le_iff_toNat_le.mpr h)
  have hfs : Fs.PGSIZE.toNat = Vm.PGSIZE := rfl
  split_ifs with hc
  · rw [UInt32.lt_iff_toNat_lt, hsub, hfs] at hc
    rw [hsub, Nat.min_eq_left hc.le]
  · rw [UInt32.lt_iff_toNat_lt, hsub, hfs] at hc
    rw [hfs, Nat.min_eq_right (Nat.not_lt.mp hc)]

/-- One page of a segment, and the rest of it. -/
theorem overlay_pass (img : ℕ → Option UInt8) {a off n k : ℕ} (hk : k = min n Vm.PGSIZE) (hle : off + k ≤ c.length) :
    overlay (overlay img a (slice c off k)) (a + Vm.PGSIZE) (slice c (off + Vm.PGSIZE) (n - Vm.PGSIZE)) =
      overlay img a (slice c off n) := by
  by_cases hmore : n ≤ Vm.PGSIZE
  · rw [hk, Nat.min_eq_left hmore, Nat.sub_eq_zero_of_le hmore, slice_zero, overlay_nil]
  · rw [Nat.min_eq_right (by omega)] at hk
    subst hk
    have happ := overlay_append img a (slice c off Vm.PGSIZE) (slice c (off + Vm.PGSIZE) (n - Vm.PGSIZE))
    rw [length_slice hle, ← slice_add, Nat.add_sub_cancel' (by omega)] at happ
    exact happ

variable {σ : St} {roots pend : Set ℕ} {r n trapframe : ℕ} {m0 t : Mem} {img : ℕ → Option UInt8} {s : Fs.State}

/-- The pages of a segment are filled, as far as the file can be read. -/
theorem loadsegFrom_spec (hread : Reads sb ip I det c E) (hr : r ∈ roots) (hn : n ≤ UPAGES) {va : ℕ} {offset sz : UInt32}
    (hal : va % Vm.PGSIZE = 0) (hend : va + sz.toNat ≤ n * Vm.PGSIZE) (hsz : sz.toNat + Vm.PGSIZE ≤ 2 ^ 32) (k : ℕ) (i : UInt32)
    (hi : i.toNat % Vm.PGSIZE = 0) (hlast : i.toNat < sz.toNat + Vm.PGSIZE) (hk : sz.toNat + Vm.PGSIZE ≤ i.toNat + k * Vm.PGSIZE)
    (hoff : det → i < sz → (offset + i).toNat = offset.toNat + i.toNat) (hI : I s) (h : Imaged K roots pend r n img m0 t)
    (hmap : ∀ v < n, ∃ e, leaf t.mem r v = some e ∧ e.perm.u = true) :
    wp (loadsegFrom sb ip r va offset sz k i) (fun ok σ' => ∃ s' t', σ' = σ.put s' t' ∧ I s' ∧ t'.mem = t.mem ∧
      ∃ img', Imaged K roots pend r n img' m0 t' ∧ (det → ok = true →
        img' = overlay img (va + i.toNat) (slice c (offset.toNat + i.toNat) (sz.toNat - i.toNat)) ∧
        (i < sz → offset.toNat + sz.toNat ≤ c.length))) E (σ.put s t) := by
  induction k generalizing i s t img with
  | zero => omega
  | succ k ih =>
    rw [loadsegFrom, wp_ite]
    refine ⟨fun hlt => ?_, fun hge => ?_⟩
    swap
    · rw [UInt32.lt_iff_toNat_lt] at hge
      refine ⟨s, t, rfl, hI, rfl, img, h, fun _ _ => ⟨?_, fun hlt => absurd (UInt32.lt_iff_toNat_lt.mp hlt) hge⟩⟩
      rw [Nat.sub_eq_zero_of_le (Nat.not_lt.mp hge), slice_zero, overlay_nil]
    have hlt' := UInt32.lt_iff_toNat_lt.mp hlt
    -- the page
    have hn2 : n * Vm.PGSIZE ≤ TRAPFRAME := by
      rw [← trapframe_eq.1]
      exact Nat.mul_le_mul_right _ hn
    have hsmall : TRAPFRAME < 2 ^ 64 := by decide
    have hva : (va + i.toNat) % 2 ^ 64 = va + i.toNat := Nat.mod_eq_of_lt (by omega)
    have hpage : (va + i.toNat) / Vm.PGSIZE * Vm.PGSIZE = va + i.toNat := by
      simp only [Vm.PGSIZE] at hal hi ⊢
      omega
    have hvn : (va + i.toNat) / Vm.PGSIZE < n := by
      rw [Nat.div_lt_iff_lt_mul (by decide)]
      omega
    obtain ⟨e, he, hu⟩ := hmap _ hvn
    simp only [wp_bind, wp_mem, hva]
    refine wp_imp (walkaddr_mapped (lt_of_lt_of_le (by omega) trapframe_eq.2) he hu) fun res t1 hres => ?_
    obtain ⟨ht1, rfl⟩ := hres
    subst t1
    simp only [wp_bind, wp_file]
    set k' := if sz - i < Fs.PGSIZE then sz - i else Fs.PGSIZE with hk'
    have hkn : k'.toNat = min (sz.toNat - i.toNat) Vm.PGSIZE := pass_toNat hlt'.le
    refine wp_mono (hread.read s (offset + i) k' hI) (fun x s1 h1 => ?_) fun _ => id
    obtain ⟨hI1, hdet⟩ := h1
    simp only [wp_mem, wp_memmove]
    have hstore := h.store hr hn hvn he 0 x.2
    rw [Nat.add_zero, Nat.sub_zero, hpage] at hstore
    rw [wp_ite]
    refine ⟨fun _ => ⟨s1, _, rfl, hI1, rfl, _, hstore, fun _ hf => absurd hf Bool.false_ne_true⟩, fun hfull => ?_⟩
    have hfull := not_not.mp hfull
    have hpos : 0 < k'.toNat := by
      rw [hkn]
      exact lt_min (by omega) (by decide)
    have hnext : (i + Fs.PGSIZE).toNat = i.toNat + Vm.PGSIZE := by
      rw [UInt32.toNat_add, show Fs.PGSIZE.toNat = Vm.PGSIZE from rfl, Nat.mod_eq_of_lt (by omega)]
    have hbytes : det → x.2 = slice c (offset.toNat + i.toNat) k'.toNat ∧ offset.toNat + i.toNat + k'.toNat ≤ c.length :=
      fun hd => by
        rw [← hoff hd hlt]
        exact readOf_full (hdet hd) hfull hpos
    refine wp_mono (ih (i + Fs.PGSIZE) ?_ ?_ ?_ (fun hd hlt2 => ?_) hI1 hstore hmap) (fun ok σ' h' => ?_) fun _ => id
    · rw [hnext, Nat.add_mod_right]
      exact hi
    · rw [hnext]
      omega
    · rw [hnext]
      rw [Nat.succ_mul] at hk
      omega
    · rw [UInt32.lt_iff_toNat_lt, hnext] at hlt2
      have hle := (hbytes hd).2
      have hsmall := hread.small hd
      rw [hkn, Nat.min_eq_right (by omega)] at hle
      rw [UInt32.toNat_add, hnext, Nat.mod_eq_of_lt (by omega)]
    · obtain ⟨s', t', rfl, hI', hm', img', himg, hcontent⟩ := h'
      refine ⟨s', t', rfl, hI', hm', img', himg, fun hd hok => ?_⟩
      obtain ⟨himg', hin⟩ := hcontent hd hok
      obtain ⟨hx, hle⟩ := hbytes hd
      have htake : x.2.take Vm.PGSIZE = slice c (offset.toNat + i.toNat) k'.toNat := by
        rw [hx, slice, List.take_take, Nat.min_eq_right (by rw [hkn]; exact min_le_right _ _)]
      refine ⟨?_, fun _ => ?_⟩
      · rw [himg', htake, hnext, ← Nat.add_assoc, ← Nat.add_assoc, ← Nat.sub_sub]
        exact overlay_pass img hkn hle
      · by_cases hmore : i.toNat + Vm.PGSIZE < sz.toNat
        · exact hin (UInt32.lt_iff_toNat_lt.mpr (by rw [hnext]; exact hmore))
        · rw [Nat.min_eq_left (by omega)] at hkn
          omega

theorem loadseg_spec (hread : Reads sb ip I det c E) (hr : r ∈ roots) (hn : n ≤ UPAGES) {va : ℕ} {offset sz : UInt32}
    (hal : va % Vm.PGSIZE = 0) (hend : va + sz.toNat ≤ n * Vm.PGSIZE) (hsz : sz.toNat + Vm.PGSIZE ≤ 2 ^ 32) (hI : I s)
    (h : Imaged K roots pend r n img m0 t) (hmap : ∀ v < n, ∃ e, leaf t.mem r v = some e ∧ e.perm.u = true) :
    wp (loadseg sb ip r va offset sz) (fun ok σ' => ∃ s' t', σ' = σ.put s' t' ∧ I s' ∧ t'.mem = t.mem ∧
      ∃ img', Imaged K roots pend r n img' m0 t' ∧ (det → ok = true →
        img' = overlay img va (slice c offset.toNat sz.toNat) ∧ (sz.toNat = 0 ∨ offset.toNat + sz.toNat ≤ c.length)))
      E (σ.put s t) := by
  have hfuel : sz.toNat + Vm.PGSIZE ≤ 0 + (sz.toNat / Vm.PGSIZE + 2) * Vm.PGSIZE := by
    simp only [Vm.PGSIZE]
    omega
  have hzero : (0 : UInt32).toNat = 0 := rfl
  refine wp_mono (loadsegFrom_spec hread hr hn hal hend hsz _ 0 rfl (by rw [hzero]; exact Nat.add_pos_right _ (by decide)) hfuel
    (fun _ _ => by rw [UInt32.add_zero]; rfl) hI h hmap) (fun ok σ' h' => ?_) fun _ => id
  obtain ⟨s', t', hσ, hI', hm, img', himg, hcontent⟩ := h'
  refine ⟨s', t', hσ, hI', hm, img', himg, fun hd hok => ?_⟩
  obtain ⟨hi, hin⟩ := hcontent hd hok
  refine ⟨hi, ?_⟩
  by_cases hpos : sz.toNat = 0
  · exact .inl hpos
  · exact .inr (hin (UInt32.lt_iff_toNat_lt.mpr (Nat.pos_of_ne_zero hpos)))

/-- The program headers of a file, `k` of them from `off` on. -/
def headers (c : List UInt8) : ℕ → ℕ → List ProgHdr
  | 0, _ => []
  | k + 1, off => ProgHdr.decode (slice c off 56) :: headers c k (off + 56)

/-- The bytes of the file that a header has loaded. -/
def segment (c : List UInt8) (ph : ProgHdr) : List UInt8 := slice c (ph.off % 2 ^ 32) ph.filesz

/-- Memory after a header. -/
def loadOne (c : List UInt8) (img : ℕ → Option UInt8) (ph : ProgHdr) : ℕ → Option UInt8 :=
  if ph.type = ELF_PROG_LOAD.toNat then overlay img ph.vaddr (segment c ph) else img

/-- The file has all the bytes of a segment. -/
def Complete (c : List UInt8) (ph : ProgHdr) : Prop :=
  ph.type = ELF_PROG_LOAD.toNat → ph.filesz = 0 ∨ ph.off % 2 ^ 32 + ph.filesz ≤ c.length

/-- Physical memory is small: what is mapped is counted in 32 bits. -/
theorem built_small {sz : ℕ} (h : Pages K roots pend t) (hr : r ∈ roots) (hb : Built K trapframe (leaf t.mem r) sz) :
    sz + Vm.PGSIZE ≤ 2 ^ 32 := by
  have hall : ∀ v < npages sz, leaf t.mem r v ≠ none := fun v hv => by
    obtain ⟨e, he, -⟩ := hb.mapped v hv
    rw [he]
    exact Option.some_ne_none e
  have hle := h.mapped_le hr (npages_le hb.le) hall
  have hphys : PHYSTOP / Vm.PGSIZE = 557056 := by decide
  rw [hphys] at hle
  simp only [npages, Vm.PGSIZE] at hle ⊢
  omega

theorem loadHeaders_spec (hread : Reads sb ip I det c E) (hr : r ∈ roots) (k : ℕ) (off : UInt32) {sz : ℕ} (hI : I s)
    (h : Imaged K roots pend r (npages sz) img m0 t) (hb : Built K trapframe (leaf t.mem r) sz) :
    wp (loadHeaders sb K ip r k off sz) (fun res σ' => ∃ s' t', σ' = σ.put s' t' ∧ I s' ∧
      Built K trapframe (leaf t'.mem r) res.2 ∧ ∃ img', Imaged K roots pend r (npages res.2) img' m0 t' ∧
      (det → res.1 = true → img' = (headers c k off.toNat).foldl (loadOne c) img ∧
        ∀ ph ∈ headers c k off.toNat, Complete c ph)) E (σ.put s t) := by
  induction k generalizing off sz s t img with
  | zero => exact ⟨s, t, rfl, hI, hb, img, h, fun _ _ => ⟨rfl, by simp [headers]⟩⟩
  | succ k ih =>
    rw [loadHeaders, wp_bind, wp_file]
    refine wp_mono (hread.read s off 56 hI) (fun x s1 h1 => ?_) fun _ => id
    obtain ⟨hI1, hdet⟩ := h1
    dsimp only
    set ph := ProgHdr.decode x.2 with hph
    -- at `goto bad`
    have hbad : ∃ s' t', ({ σ.put s t with fs := s1 } : St) = σ.put s' t' ∧ I s' ∧ Built K trapframe (leaf t'.mem r) sz ∧
        ∃ img', Imaged K roots pend r (npages sz) img' m0 t' ∧ (det → false = true →
          img' = (headers c (k + 1) off.toNat).foldl (loadOne c) img ∧ ∀ ph ∈ headers c (k + 1) off.toNat, Complete c ph) :=
      ⟨s1, t, rfl, hI1, hb, img, h, fun _ hf => absurd hf Bool.false_ne_true⟩
    rw [wp_ite]
    refine ⟨fun _ => hbad, fun hfull => ?_⟩
    have hheader : det → ph = ProgHdr.decode (slice c off.toNat 56) ∧ (off + 56).toNat = off.toNat + 56 := fun hd => by
      obtain ⟨hx, hle⟩ := readOf_full (hdet hd) (not_not.mp hfull) (by decide)
      have hsmall := hread.small hd
      have h56 : (56 : UInt32).toNat = 56 := rfl
      rw [h56] at hx hle
      rw [hph, hx, UInt32.toNat_add, h56, Nat.mod_eq_of_lt (by omega)]
      exact ⟨rfl, rfl⟩
    rw [wp_ite]
    refine ⟨fun hskip => ?_, fun hload => ?_⟩
    · refine wp_mono (ih (off + 56) hI1 h hb) (fun res σ' h' => ?_) fun _ => id
      obtain ⟨s', t', hσ, hI', hb', img', himg, hcontent⟩ := h'
      refine ⟨s', t', hσ, hI', hb', img', himg, fun hd hok => ?_⟩
      obtain ⟨hdec, hoff⟩ := hheader hd
      obtain ⟨hi, hall⟩ := hcontent hd hok
      rw [hoff] at hi hall
      rw [headers, ← hdec, List.foldl_cons, loadOne, if_neg hskip]
      refine ⟨hi, fun q hq => ?_⟩
      rcases List.mem_cons.mp hq with rfl | hq
      · exact fun hl => absurd hl hskip
      · exact hall q hq
    simp only [wp_ite, wp_pure]
    refine ⟨fun _ => hbad, fun hmemsz => ⟨fun _ => hbad, fun hwrap => ⟨fun _ => hbad, fun hal => ?_⟩⟩⟩
    have hsum : (ph.vaddr + ph.memsz) % 2 ^ 64 = ph.vaddr + ph.memsz :=
      add_mod_of_not_lt (headerField_lt x.2 16 8) (headerField_lt x.2 40 8) hwrap
    rw [wp_bind, wp_mem, hsum]
    refine wp_imp (uvmalloc_image h hr hb) fun sz1 t1 h1 => ?_
    obtain ⟨rfl, h1, hb1⟩ | ⟨hpos, hsz1, h1, hb1, -⟩ := h1
    · rw [if_pos rfl]
      exact ⟨s1, t1, rfl, hI1, hb1, img, h1, fun _ hf => absurd hf Bool.false_ne_true⟩
    rw [if_neg hpos, wp_bind]
    have hsmall := built_small h1.pages hr hb1
    have hle : ph.vaddr + ph.filesz ≤ sz1 := by omega
    have hfile : (UInt32.ofNat ph.filesz).toNat = ph.filesz := by
      rw [UInt32.toNat_ofNat', Nat.mod_eq_of_lt (by simp only [Vm.PGSIZE] at hsmall; omega)]
    have hend : ph.vaddr + ph.filesz ≤ npages sz1 * Vm.PGSIZE := by
      simp only [npages, Vm.PGSIZE]
      omega
    refine wp_mono (loadseg_spec hread hr (npages_le hb1.le) (not_not.mp hal) (by rw [hfile]; exact hend) (by rw [hfile]; omega) hI1
      h1 hb1.mapped) (fun ok σ2 h2 => ?_) fun _ => id
    obtain ⟨s2, t2, rfl, hI2, hm2, img2, h2, hcontent2⟩ := h2
    have hb2 : Built K trapframe (leaf t2.mem r) sz1 := by rw [hm2]; exact hb1
    cases ok with
    | false => exact ⟨s2, t2, rfl, hI2, hb2, img2, h2, fun _ hf => absurd hf Bool.false_ne_true⟩
    | true =>
      rw [if_pos rfl]
      refine wp_mono (ih (off + 56) hI2 h2 hb2) (fun res σ' h' => ?_) fun _ => id
      obtain ⟨s', t', hσ, hI', hb', img', himg, hcontent⟩ := h'
      refine ⟨s', t', hσ, hI', hb', img', himg, fun hd hok => ?_⟩
      obtain ⟨hdec, hoff⟩ := hheader hd
      obtain ⟨hi, hall⟩ := hcontent hd hok
      obtain ⟨hi2, hfull2⟩ := hcontent2 hd rfl
      rw [hfile, UInt32.toNat_ofNat'] at hi2 hfull2
      rw [hoff] at hi hall
      rw [headers, ← hdec, List.foldl_cons, loadOne, if_pos (not_not.mp hload), segment, ← hi2]
      refine ⟨hi, fun q hq => ?_⟩
      rcases List.mem_cons.mp hq with rfl | hq
      · exact fun _ => hfull2
      · exact hall q hq

end Load

section Kexec

variable {sb : Superblock} {K : Kernel} {ip : Ip} {E : Stop → Prop} {I J : Fs.State → Prop} {det : Prop} {c : List UInt8}
  {σ : St} {p : Vm.Slot} {roots pend : Set ℕ} {r sz f old : ℕ} {m0 t : Mem} {img : ℕ → Option UInt8} {s : Fs.State}

/-- The page tables and the pages that are held are as they were. -/
structure Restored (K : Kernel) (roots pend : Set ℕ) (m0 t : Mem) : Prop where
  pages : Pages K roots pend t
  leaves : SameLeaves roots m0 t
  held : ∀ x ∈ pend, t.data x = m0.data x

/-- Beside what was there, a new address space `r` of `sz` bytes with the trapframe `f`. -/
structure Drafted (K : Kernel) (roots pend : Set ℕ) (f r sz : ℕ) (img : ℕ → Option UInt8) (m0 t : Mem) : Prop where
  fresh : r ∉ roots
  le : sz ≤ TRAPFRAME
  above : ∀ v, npages sz ≤ v → leaf t.mem r v = kernelLeaves K f v
  image : Imaged K (insert r roots) pend r (npages sz) img m0 t

theorem Drafted.discard (h : Drafted K roots pend f r sz img m0 t) :
    wp (procFreepagetable K r sz) (fun _ t' => Restored K roots pend m0 t') never t := by
  have hfree := procFreepagetable_spec h.image.pages (Set.mem_insert r roots) h.le (.of_kernel h.above)
  rw [Set.insert_sdiff_self_of_notMem h.fresh] at hfree
  refine wp_mono (wp_and hfree (procFreepagetable_onlyFreed sz)) (fun _ t' h' => ?_) fun _ he => he.1
  obtain ⟨⟨hp, hl⟩, hfreed⟩ := h'
  refine ⟨hp, (h.image.but.leaves h.fresh).trans hl, fun x hx => ?_⟩
  rw [hfreed.data x (hp.held_notMem hx)]
  exact h.image.held x hx

/-- The memory is restored once the new page table, if there is one, has been freed. -/
def Undoes (K : Kernel) (roots pend : Set ℕ) (m0 t : Mem) : Option (ℕ × ℕ) → Prop
  | none => Restored K roots pend m0 t
  | some (r, sz) => wp (procFreepagetable K r sz) (fun _ t' => Restored K roots pend m0 t') never t

/-- The file system is left as `J` says once the inode, if it is locked, has been released. -/
def Closes (sb : Superblock) (E : Stop → Prop) (J : Fs.State → Prop) (s : Fs.State) : Option Ip → Prop
  | none => J s
  | some ip => wp (iunlockput sb ip) (fun _ s1 => wp endOp (fun _ s' => J s') (fun e => E (.fs e)) s1) (fun e => E (.fs e)) s

theorem bad_spec {α : Type} (table : Option (ℕ × ℕ)) (ipx : Option Ip) (hmem : Undoes K roots pend m0 t table)
    (hfs : Closes sb E J s ipx) : wp (bad sb K table ipx : M (Option α)) (fun res σ' => res = none ∧
      ∃ s' t', σ' = σ.put s' t' ∧ J s' ∧ Restored K roots pend m0 t') E (σ.put s t) := by
  have hclose : ∀ {t'}, Restored K roots pend m0 t' → wp (bad sb K none ipx : M (Option α)) (fun res σ' => res = none ∧
      ∃ s' t', σ' = σ.put s' t' ∧ J s' ∧ Restored K roots pend m0 t') E (σ.put s t') := by
    intro t' ht'
    cases ipx with
    | none => exact ⟨rfl, s, t', rfl, hfs, ht'⟩
    | some ip =>
      simp only [bad, wp_bind, wp_file, wp_pure]
      refine wp_mono hfs (fun _ s1 h1 => wp_mono h1 (fun _ s2 h2 => ?_) fun _ => id) fun _ => id
      exact ⟨trivial, s2, t', rfl, h2, ht'⟩
  cases table with
  | none => exact hclose hmem
  | some x =>
    simp only [bad]
    rw [wp_bind, wp_mem]
    exact wp_imp hmem fun _ t' ht' => hclose ht'

/-- The header, and the memory that the program headers describe. -/
structure Describes (c : List UInt8) (elf : ElfHdr) (img : ℕ → Option UInt8) : Prop where
  header : elf = ElfHdr.decode (slice c 0 64)
  image : img = (headers c elf.phnum (elf.phoff % 2 ^ 32)).foldl (loadOne c) fun _ => none
  complete : ∀ ph ∈ headers c elf.phnum (elf.phoff % 2 ^ 32), Complete c ph

/-- What has been loaded from a file with the bytes `c`. -/
structure Loaded (K : Kernel) (roots pend : Set ℕ) (f : ℕ) (c : List UInt8) (det : Prop) (m0 t : Mem) (r sz : ℕ) (elf : ElfHdr) :
    Prop where
  built : Built K f (leaf t.mem r) sz
  image : ∃ img, Drafted K roots pend f r sz img m0 t ∧ (det → Describes c elf img)

theorem loadImage_spec (hread : Reads sb ip I det c E)
    (hclose : ∀ s, I s → Closes sb E J s (some ip))
    (hf : (σ.vm.proc p).trapframe = some f) (h : Pages K roots pend σ.vm.m) (hI : I σ.fs) :
    wp (loadImage sb K p ip) (fun res σ' => ∃ s' t', σ' = σ.put s' t' ∧ J s' ∧ match res with
      | none => Restored K roots pend σ.vm.m t'
      | some (r, sz, elf) => Loaded K roots pend f c det σ.vm.m t' r sz elf) E σ := by
  rw [loadImage, wp_bind, wp_file]
  refine wp_mono (hread.read σ.fs 0 64 hI) (fun x s1 h1 => ?_) fun _ => id
  obtain ⟨hI1, hdet⟩ := h1
  dsimp only
  have hbad : ∀ table {t'}, Undoes K roots pend σ.vm.m t' table → ∀ {s'}, I s' →
      wp (bad sb K table (some ip)) (fun res σ' => ∃ s' t', σ' = σ.put s' t' ∧ J s' ∧ match res with
        | none => Restored K roots pend σ.vm.m t'
        | some (r, sz, elf) => Loaded K roots pend f c det σ.vm.m t' r sz elf) E (σ.put s' t') := by
    intro table t' ht' s' hs'
    refine wp_mono (bad_spec table (some ip) ht' (hclose s' hs')) (fun res σ' h' => ?_) fun _ => id
    obtain ⟨rfl, s2, t2, hσ, hJ, hrest⟩ := h'
    exact ⟨s2, t2, hσ, hJ, hrest⟩
  have hsame : Restored K roots pend σ.vm.m σ.vm.m := ⟨h, .refl _ _, fun _ _ => rfl⟩
  rw [wp_ite]
  refine ⟨fun _ => hbad none hsame hI1, fun hfull => ?_⟩
  rw [wp_ite]
  refine ⟨fun _ => hbad none hsame hI1, fun _ => ?_⟩
  simp only [wp_bind, wp_proc, wp_trapframeOf hf, wp_mem]
  refine wp_mono (wp_and (procPagetable_spec f h) (procPagetable_spared f)) (fun res t1 h1 => ?_) fun _ he => (he.1 : False).elim
  obtain ⟨⟨hl1, ⟨rfl, hp1⟩ | ⟨r, rfl, hnew, hp1, hr1⟩⟩, hspared⟩ := h1
  · exact hbad none ⟨hp1, hl1, hspared.held h hp1⟩ hI1
  have hroot := Set.mem_insert r roots
  have hb1 : Built K f (leaf t1.mem r) 0 :=
    ⟨Nat.zero_le _, fun v hv => absurd hv (by simp [npages, Vm.PGSIZE]), fun v _ => congrFun hr1 v⟩
  have hi1 : Imaged K (insert r roots) pend r (npages 0) (fun _ => none) σ.vm.m t1 := by
    refine ⟨hp1, ?_, hspared.held h hp1, fun v hv => absurd hv (by simp [npages, Vm.PGSIZE]), fun _ _ => rfl⟩
    have hroots : insert r roots \ {r} = roots := Set.insert_sdiff_self_of_notMem hnew
    rw [SameBut, hroots]
    exact hl1
  simp only [wp_bind]
  refine wp_mono (loadHeaders_spec hread hroot _ _ hI1 hi1 hb1) (fun x2 σ2 h2 => ?_) fun _ => id
  obtain ⟨s2, t2, rfl, hI2, hb2, img, h2, hcontent⟩ := h2
  obtain ⟨ok, sz⟩ := x2
  have hdraft : Drafted K roots pend f r sz img σ.vm.m t2 := ⟨hnew, hb2.le, hb2.above, h2⟩
  dsimp only
  cases ok with
  | false => exact hbad (some (r, sz)) hdraft.discard hI2
  | true =>
    simp only [Bool.not_true, Bool.false_eq_true, if_false, wp_bind, wp_file, wp_pure]
    refine wp_mono (hclose s2 hI2) (fun _ s3 h3 => wp_mono h3 (fun _ s4 h4 => ?_) fun _ => id) fun _ => id
    refine ⟨s4, t2, rfl, h4, hb2, img, hdraft, fun hd => ?_⟩
    obtain ⟨hx, -⟩ := readOf_full (hdet hd) (not_not.mp hfull) (by decide)
    obtain ⟨himg, hall⟩ := hcontent hd rfl
    rw [UInt32.toNat_ofNat'] at himg hall
    exact ⟨by rw [hx]; rfl, himg, hall⟩

/-- The new address space with its stack, before the switch to it. -/
structure Staged (K : Kernel) (roots pend : Set ℕ) (f r n top : ℕ) (img : ℕ → Option UInt8) (argv : List (List UInt8)) (m0 t : Mem) :
    Prop where
  drafted : Drafted K roots pend f r top (stackImage img top argv) m0 t
  size : top = (n + (USERSTACK + 1)) * Vm.PGSIZE
  stacked : Stacked (leaf t.mem r) n
  fits : FitsStack (top - USERSTACK * Vm.PGSIZE) top argv

theorem commitImage_spec {path : List UInt8} {argv : List (List UInt8)} {elf : ElfHdr} {Q : Option ℕ → St → Prop}
    (hold : (σ.vm.proc p).pagetable = some old) (hargv : ∀ arg ∈ argv, arg.length < 2 ^ 31)
    (hl : Loaded K roots pend f c det m0 t r sz elf)
    (hfail : ∀ t', Restored K roots pend m0 t' → (∀ sz1 m1, uvmalloc K r (pgRoundUp sz) (pgRoundUp sz + (USERSTACK + 1) * Vm.PGSIZE)
        (true, false) t = .ok (sz1, m1) → sz1 ≠ 0 → argv.length ≤ MAXARG → (∀ arg ∈ argv, arg.length < Vm.PGSIZE) →
        ¬ FitsStack (sz1 - USERSTACK * Vm.PGSIZE) sz1 argv) → Q none (σ.put s t'))
    (hswitch : ∀ img t' top, (det → Describes c elf img) → (∀ a, npages sz * Vm.PGSIZE ≤ a → img a = none) → Staged K roots pend f r (npages sz) top img argv m0 t' →
      wp (switchImage K p path r top elf.entry (stackSp top argv) old (σ.vm.proc p).sz) (fun _ => Q (some argv.length)) E
        (σ.put s t')) : wp (commitImage sb K p path argv r sz elf) Q E (σ.put s t) := by
  obtain ⟨img, hd, hdesc⟩ := hl.image
  have hold' : (St.vm (σ.put s t)).proc p = σ.vm.proc p := rfl
  simp only [commitImage, wp_bind, wp_proc, wp_pagetableOf (hold'.symm ▸ hold), Vm.wp_getProc, wp_mem]
  refine wp_imp (buildStack_image hd.image (Set.mem_insert r roots) hl.built hargv) fun res t1 h1 => ?_
  obtain ⟨stack, top⟩ := res
  dsimp only at h1 ⊢
  obtain ⟨hle, habove, ⟨rfl, ⟨img', himg⟩, hwhy⟩ | ⟨rfl, htop, himg, hst, hfit⟩⟩ := h1
  · have hd' : Drafted K roots pend f r top img' m0 t1 := ⟨hd.fresh, hle, habove, himg⟩
    have hcl : Closes sb E (fun s' => s' = s) s none := rfl
    refine wp_mono (bad_spec (some (r, top)) none hd'.discard hcl) (fun res σ' h' => ?_) fun _ => id
    obtain ⟨rfl, s', t', rfl, rfl, hrest⟩ := h'
    exact hfail t' hrest hwhy
  · rw [wp_bind]
    exact hswitch img t1 top hdesc hd.image.carries.above ⟨⟨hd.fresh, hle, habove, himg⟩, htop, hst, hfit⟩

/-- The trapframe after the switch. -/
def newFrame (page : ℕ → UInt8) (entry sp : ℕ) : ℕ → UInt8 :=
  splice (splice (splice page A1 (leBytes 8 sp)) EPC (leBytes 8 entry)) SP (leBytes 8 sp)

/-- The eight bytes at an offset of a page. -/
def word (page : ℕ → UInt8) (off : ℕ) : List UInt8 := (List.range 8).map fun k => page (off + k)

theorem word_splice (page : ℕ → UInt8) (off x : ℕ) : word (splice page off (leBytes 8 x)) off = leBytes 8 x := by
  refine List.map_congr_left fun k hk => ?_
  have hk : k < 8 := List.mem_range.mp hk
  rw [splice, if_neg (by omega), Nat.add_sub_cancel_left, leBytes, List.getElem?_map, List.getElem?_range hk]
  rfl

theorem word_splice_of_ne {page : ℕ → UInt8} {off o x : ℕ} (h : o + 8 ≤ off ∨ off + 8 ≤ o) :
    word (splice page off (leBytes 8 x)) o = word page o := by
  refine List.map_congr_left fun k hk => ?_
  have hk : k < 8 := List.mem_range.mp hk
  rw [splice]
  split_ifs with hlt
  · rfl
  · rw [List.getElem?_eq_none (by rw [leBytes, List.length_map, List.length_range]; omega)]
    rfl

theorem newFrame_epc (page : ℕ → UInt8) (entry sp : ℕ) : word (newFrame page entry sp) EPC = leBytes 8 entry := by
  rw [newFrame, word_splice_of_ne (by decide), word_splice]

theorem newFrame_sp (page : ℕ → UInt8) (entry sp : ℕ) : word (newFrame page entry sp) SP = leBytes 8 sp := word_splice ..

theorem newFrame_a1 (page : ℕ → UInt8) (entry sp : ℕ) : word (newFrame page entry sp) A1 = leBytes 8 sp := by
  rw [newFrame, word_splice_of_ne (by decide), word_splice_of_ne (by decide), word_splice]

theorem switchImage_spec {Y : Set ℕ} {path : List UInt8} {entry sp : ℕ} (h : Inv K Y σ.vm) (hst : (σ.vm.proc p).state = .live)
    (hold : (σ.vm.proc p).pagetable = some old) (hf : (σ.vm.proc p).trapframe = some f)
    (hd : Drafted K (Vm.roots σ.vm.proc) (held σ.vm.proc σ.vm.others Y) f r sz img σ.vm.m t) :
    wp (switchImage K p path r sz entry sp old (σ.vm.proc p).sz) (fun _ σ' => ∃ m', σ' = ⟨s, ⟨m', Function.update σ.vm.proc p
        { σ.vm.proc p with pagetable := some r, sz := sz }, σ.vm.others⟩,
        Function.update σ.name p (safestrcpy NAMELEN (σ.name p) (lastElem path path))⟩ ∧ Inv K Y σ'.vm ∧
      leaf m'.mem r = leaf t.mem r ∧ Carries m' r (npages sz) img ∧ m'.data f = newFrame (σ.vm.m.data f) entry sp) E
      (σ.put s t) := by
  have hheld : f ∈ held σ.vm.proc σ.vm.others Y := Holders.mem_holdings hf
  have hf0 : ((σ.put s t).vm.proc p).trapframe = some f := hf
  simp only [switchImage, wp_bind, wp_proc, wp_trapframeOf hf0, wp_mem, wp_memmove, wp_modify, Vm.wp_modifyProc,
    Function.update_idem, Function.update_self]
  change wp (procFreepagetable K old (σ.vm.proc p).sz) _ _ { t with data := Function.update t.data f (newFrame (t.data f) entry sp) }
  have holdr : old ∈ Vm.roots σ.vm.proc := Holders.mem_holdings hold
  have hne : r ≠ old := fun he => hd.fresh (he ▸ holdr)
  obtain ⟨hp1, hfill⟩ := hd.image.pages.fill hheld (newFrame (t.data f) entry sp)
  have hl1 := (hd.image.but.leaves hd.fresh).trans (hfill.mono (Set.subset_insert r _))
  have hfits : Fits (leaf t.mem old) (npages (σ.vm.proc p).sz) := by
    rw [hl1.leaf old holdr]
    exact (h.sane p).fits hold
  refine wp_mono (wp_and (replace_table h hst hold hf hd.fresh hd.le hp1 hl1 hd.above)
    (wp_and (procFreepagetable_spec hp1 (.inr holdr) ((h.sane p).table old hold).1 hfits) (procFreepagetable_onlyFreed _)))
    (fun _ m2 h2 => ?_) fun _ he => he.1.elim
  obtain ⟨hinv, ⟨hp2, hl2⟩, hfreed⟩ := h2
  have hleaf : leaf m2.mem r = leaf t.mem r := hl2.leaf r ⟨Set.mem_insert r _, hne⟩
  refine ⟨m2, rfl, hinv, hleaf, ⟨fun v hv e he o ho => ?_, hd.image.carries.above⟩, ?_⟩
  · rw [hleaf] at he
    have hvu := hv.trans_le (npages_le hd.le)
    have hnf : e.pa ≠ f := by
      rintro rfl
      exact (hd.image.pages.user (Set.mem_insert r _) hvu he).2.2 hheld
    rw [hl2.data r ⟨Set.mem_insert r _, hne⟩ v hvu e he]
    dsimp only
    rw [Function.update_of_ne hnf]
    exact hd.image.carries.byte v hv e he o ho
  · rw [hfreed.data f (hp2.held_notMem hheld)]
    dsimp only
    rw [Function.update_self, hd.image.held f hheld]

theorem loadPath_spec (det : Prop) {cwd : Ip} {path : List UInt8} {Q : Option (ℕ × ℕ × ElfHdr) → St → Prop}
    (hf : (σ.vm.proc p).trapframe = some f) (h : Pages K roots pend σ.vm.m)
    (hopen : wp (openPath sb cwd path) (fun res s' => match res with
      | none => Q none (σ.put s' σ.vm.m)
      | some ip => ∃ I J c, I s' ∧ Reads sb ip I det c E ∧ (∀ s, I s → Closes sb E J s (some ip)) ∧
        (∀ s t, J s → Restored K roots pend σ.vm.m t → Q none (σ.put s t)) ∧
        ∀ s t r sz elf, J s → Loaded K roots pend f c det σ.vm.m t r sz elf → Q (some (r, sz, elf)) (σ.put s t))
      (fun e => E (.fs e)) σ.fs) : wp (loadPath sb K p cwd path) Q E σ := by
  rw [loadPath, wp_bind, wp_file]
  refine wp_mono hopen (fun res s' h' => ?_) fun _ => id
  cases res with
  | none => exact h'
  | some ip =>
    obtain ⟨I, J, c, hI, hread, hclose, hnone, hsome⟩ := h'
    refine wp_mono (@loadImage_spec sb K ip E I J det c (σ.put s' σ.vm.m) p roots pend f hread hclose hf h hI)
      (fun res σ' h' => ?_) fun _ => id
    obtain ⟨s2, t2, rfl, hJ, hres⟩ := h'
    cases res with
    | none => exact hnone s2 t2 hJ hres
    | some x => exact hsome s2 t2 x.1 x.2.1 x.2.2 hJ hres

theorem kexec_wp {cwd : Ip} {path : List UInt8} {argv : List (List UInt8)} {Q : Option ℕ → St → Prop}
    (h : wp (loadPath sb K p cwd path) (fun res σ' => match res with
      | none => Q none σ'
      | some (r, sz, elf) => wp (commitImage sb K p path argv r sz elf) Q E σ') E σ) : wp (kexec sb K p cwd path argv) Q E σ := by
  rw [kexec, wp_bind]
  refine wp_mono h (fun res σ' h' => ?_) fun _ => id
  cases res with
  | none => exact h'
  | some x => exact h'

end Kexec

section Files

variable {sb : Superblock} {E : Stop → Prop} {cwd ip : Ip} {path : List UInt8} {s : Fs.State}

section Any

variable {base : Ip → ℕ} {tr : List TxEvent} {H : Multiset Ip} {B : Finset Ip}

/-- Whatever the file system holds, what is taken is accounted for. -/
theorem openPath_acct (h : Acct base tr false H B s) : wp (openPath sb cwd path) (fun res s' => match res with
    | none => Acct base tr false H B s'
    | some ip => ip ∉ B ∧ Acct base tr true (ip ::ₘ H) (insert ip B) s') (fun _ => True) s := by
  rw [openPath, wp_bind]
  refine wp_mono h.beginOp (fun _ s1 h1 => ?_) fun _ => id
  rw [wp_bind]
  refine wp_mono (h1.namei cwd path) (fun r s2 h2 => ?_) fun _ => id
  cases r with
  | none =>
    rw [wp_bind]
    exact h2.endOp
  | some ip =>
    rw [wp_bind]
    exact h2.ilock ip

theorem reads_acct : Reads sb ip (fun s => Acct base tr true H B s) False [] fun _ => True where
  small := False.elim
  read := fun _ _ _ h => wp_mono (h.untouched (preserves_readi _ _ _)) (fun _ _ h' => ⟨h', False.elim⟩) fun _ => id

theorem closes_acct (hk : ip ∉ B) (h : Acct base tr true (ip ::ₘ H) (insert ip B) s) :
    Closes sb (fun _ => True) (fun s' => Acct base tr false H B s') s (some ip) :=
  wp_mono (h.iunlockput hk) (fun _ _ h' => h'.endOp) fun _ => id

end Any

section Sound

variable {L : Multiset (Ip × ℕ)} {N : ℕ → Node} {i : ℕ}

theorem openPath_ctx (h : Ctx sb s L [] N) (hr : Ready sb L N cwd i) : wp (openPath sb cwd path) (fun res s' => match res with
    | none => Ctx sb s' L [] N
    | some ip => ∃ j, Ctx sb s' ((ip, j) ::ₘ L) [ip] N) (fun _ => True) s := by
  rw [openPath, wp_bind]
  refine wp_imp h.beginOp fun _ s1 h1 => ?_
  rw [wp_bind]
  refine wp_mono (namei_spec h1 hr path) (fun r s2 h2 => ?_) fun _ _ => trivial
  rcases h2 with ⟨rfl, h2⟩ | ⟨jp, j, rfl, -, h2⟩
  · rw [wp_bind]
    exact wp_imp h2.endOp fun _ _ h3 => h3
  · rw [wp_bind]
    exact wp_mono (h2.ilock (Multiset.mem_cons_self _ _) List.not_mem_nil) (fun _ s3 h3 => ⟨j, h3.2⟩) fun _ _ => trivial

/-- A file of a sound file system is read as the bytes it has. -/
theorem reads_ctx {j : ℕ} (h : Ctx sb s ((ip, j) ::ₘ L) [ip] N) : Reads sb ip (fun s' => s' = s) True (contents sb s j) E where
  small := fun _ => by
    rw [contents_length]
    exact UInt32.toNat_lt _
  read := by
    rintro _ off n rfl
    have hw := h.inv.wellMapped (h.live (Multiset.mem_cons_self _ _) List.mem_cons_self)
    have hrun := @WellMapped.readi _ _ _ _ hw .kernel off n trivial
    simp only [wp, hrun]
    exact ⟨trivial, fun _ => trivial⟩

theorem closes_ctx {j : ℕ} (h : Ctx sb s ((ip, j) ::ₘ L) [ip] N) :
    Closes sb E (fun s' => Ctx sb s' L [] (release N L j)) s (some ip) :=
  wp_imp (h.iunlockput List.not_mem_nil) fun _ _ h' => wp_imp h'.endOp fun _ _ h'' => h''

end Sound

end Files

end Xv6.Exec
