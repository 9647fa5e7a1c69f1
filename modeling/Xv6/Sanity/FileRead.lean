import Xv6.Lib.Ring
import Xv6.Sanity.UserCopy
import Xv6.Spec.FileRead

/-! What one read does to the memory of its process, to the pipe and to the console. -/

namespace Xv6.Read

open Wp Vm Ring

variable {α : Type} {K : Kernel} {r sz a len : ℕ} {σ σ' τ : St}

/-- No error. -/
abbrev never : Stop → Prop := fun _ => False

section Rules

variable {E : Stop → Prop}

@[simp] theorem wp_file {m : Fs.FsM α} {Q : α → St → Prop} :
    wp (file m) Q E σ ↔ wp m (fun a s => Q a { σ with fs := s }) (fun e => E (.fs e)) σ.fs := by
  simp only [wp, file]
  cases m σ.fs with
  | ok r => rfl
  | error e => rfl

end Rules

/-- The page tables are in order, and `r` maps nothing for the user from the trapframe on. -/
def Steady (K : Kernel) (r : ℕ) (s : Mem) : Prop :=
  ∃ roots pend, r ∈ roots ∧ Pages K roots pend s ∧ KernelOnly (leaf s.mem r)

/-- Of the memory of the process nothing has changed but in the range. -/
structure Within (K : Kernel) (r sz a len : ℕ) (σ σ' : St) : Prop where
  steady : Steady K r σ'.m
  outside : ∀ x, ¬ (a ≤ x ∧ x < a + len) → userByte σ'.m r sz x = userByte σ.m r sz x

/-- While the process sleeps, the others leave its memory alone. -/
def Nap.Quiet (K : Kernel) (r sz : ℕ) (nap : Nap) : Prop :=
  ∀ σ, Steady K r σ.m → Within K r sz 0 0 σ (nap.others σ)

section Within

theorem Within.refl (h : Steady K r σ.m) (a len : ℕ) : Within K r sz a len σ σ := ⟨h, fun _ _ => rfl⟩

theorem Within.trans (h : Within K r sz a len σ τ) (h' : Within K r sz a len τ σ') : Within K r sz a len σ σ' :=
  ⟨h'.steady, fun x hx => (h'.outside x hx).trans (h.outside x hx)⟩

theorem Within.widen {a' len' : ℕ} (h : Within K r sz a len σ σ') (hin : ∀ x, a ≤ x ∧ x < a + len → a' ≤ x ∧ x < a' + len') :
    Within K r sz a' len' σ σ' :=
  ⟨h.steady, fun x hx => h.outside x fun hlo => hx (hin x hlo)⟩

theorem Within.nothing (h : Within K r sz 0 0 σ σ') (a len : ℕ) : Within K r sz a len σ σ' := h.widen fun x hx => by omega

end Within

section Pipe

/-- The bytes that wait in the pipe. -/
def PipeHolds (σ : St) (q : List UInt8) : Prop := Holds PIPESIZE σ.pipe.data σ.pipe.nread σ.pipe.nwrite q

/-- The copying loop of `piperead` has run from byte `i` on. -/
structure PipeCopied (K : Kernel) (r sz addr n i : ℕ) (e : Ended) (σ σ' : St) : Prop where
  within : Within K r sz addr n σ σ'
  bound : e.ret ≤ n
  queue : ∀ q, PipeHolds σ q → ∃ got rest, q = got ++ rest ∧ PipeHolds σ' rest ∧
    e.ret + (if e.failed then 1 else 0) = i + got.length

theorem PipeCopied.stop {addr n i : ℕ} (h : Steady K r σ.m) (hi : i ≤ n) : PipeCopied K r sz addr n i ⟨i, false⟩ σ σ where
  within := .refl h _ _
  bound := Int.ofNat_le.mpr hi
  queue q hq := ⟨[], q, rfl, hq, by simp⟩

end Pipe

section Console

open Console (INPUT_BUF_SIZE ctrl newline)

variable {rd rd' : Reader} {addr : ℕ} {n : BitVec 32}

/-- The committed bytes that wait in the console. -/
def ConsHolds (σ : St) (q : List UInt8) : Prop := Holds INPUT_BUF_SIZE σ.cons.buf σ.cons.r σ.cons.w q

/-- A call of `consoleread` for `n` bytes to `addr` is under way. -/
structure Reader.Reads (addr : ℕ) (n : BitVec 32) (rd : Reader) : Prop where
  target : rd.target = n
  rest : rd.n.toNat + rd.got.length = n.toNat
  pos : rd.got ≠ [] → 0 < n.toInt ∧ addr + rd.got.length ≤ TRAPFRAME
  dst : rd.dst = addr + rd.got.length

theorem Reader.Reads.length_le (h : rd.Reads addr n) : rd.got.length ≤ n.toInt.toNat := by
  by_cases hne : rd.got = []
  · rw [hne]
    exact Nat.zero_le _
  · have hpos := (h.pos hne).1
    have hrest := h.rest
    rw [BitVec.toInt_eq_toNat_cond] at hpos ⊢
    split_ifs at hpos ⊢ <;> omega

theorem Reader.Reads.ret_eq (h : rd.Reads addr n) : rd.ret = rd.got.length := by
  have hlen := h.length_le
  have hrest := h.rest
  have hlt := n.isLt
  have hsub : (n - rd.n).toNat = rd.got.length := by
    rw [BitVec.toNat_sub]
    omega
  rw [Reader.ret, h.target, BitVec.toInt_eq_toNat_cond, hsub, if_pos]
  rw [BitVec.toInt_eq_toNat_cond] at hlen
  split_ifs at hlen <;> omega

theorem Reader.Reads.target_pos (h : rd.Reads addr n) (hn : 0 < rd.n.toInt) : 0 < n.toInt := by
  by_cases hne : rd.got = []
  · have hrest := h.rest
    rw [hne, List.length_nil, Nat.add_zero] at hrest
    rwa [← BitVec.eq_of_toNat_eq hrest]
  · exact (h.pos hne).1

theorem Reader.Reads.room (h : rd.Reads addr n) (hn : 0 < rd.n.toInt) : rd.got.length < n.toInt.toNat := by
  have hpos := h.target_pos hn
  have hrest := h.rest
  rw [BitVec.toInt_eq_toNat_cond] at hn hpos ⊢
  split_ifs at hn hpos ⊢ <;> omega

theorem Reader.Reads.next (c : UInt8) (t : List UInt8) (h : rd.Reads addr n) (hn : 0 < rd.n.toInt)
    (hbelow : rd.dst + 1 ≤ TRAPFRAME) :
    Reader.Reads addr n ⟨rd.target, rd.n - 1, (rd.dst + 1) % 2 ^ 64, rd.got ++ [c], t⟩ := by
  have hrest := h.rest
  have hdst := h.dst
  have hbig : TRAPFRAME < 2 ^ 64 := by decide
  have hlen : (rd.got ++ [c]).length = rd.got.length + 1 := by simp
  refine ⟨h.target, ?_, fun _ => ⟨h.target_pos hn, by rw [hlen]; omega⟩, ?_⟩
  · have hne : rd.n.toNat ≠ 0 := by
      intro hz
      rw [BitVec.toInt_eq_toNat_cond, hz] at hn
      simp at hn
    have hsub : (rd.n - 1).toNat = rd.n.toNat - 1 := by
      rw [BitVec.toNat_sub]
      simp
      omega
    rw [hsub, hlen]
    omega
  · show (rd.dst + 1) % 2 ^ 64 = addr + (rd.got ++ [c]).length
    rw [Nat.mod_eq_of_lt (by omega), hdst, hlen, Nat.add_assoc]

/-- The call has run up to a `sleep` or to its end. -/
structure ConsRead (K : Kernel) (r sz addr : ℕ) (n : BitVec 32) (rd rd' : Reader) (e : Option Ended) (σ σ' : St) : Prop where
  reads : rd'.Reads addr n
  within : Within K r sz addr n.toInt.toNat σ σ'
  queue : ∀ q, ConsHolds σ q → ∃ new rest, q = new ++ rest ∧ rd'.taken = rd.taken ++ new ∧ ConsHolds σ' rest
  asleep : rd.taken = rd.got → e = none → rd'.taken = rd'.got
  taken : rd.taken = rd.got → ∀ x ∈ e, if x.failed then ∃ c, rd'.taken = rd'.got ++ [c]
    else rd'.taken = rd'.got ∨ rd'.taken = rd'.got ++ [ctrl 'D']
  ret : ∀ x ∈ e, x.ret = -1 ∨ x.ret = rd'.got.length

theorem ConsRead.stop {e : Option Ended} (h : Steady K r σ.m) (hrd : rd.Reads addr n)
    (he : ∀ x ∈ e, x.failed = false ∧ (x.ret = -1 ∨ x.ret = rd.ret)) : ConsRead K r sz addr n rd rd e σ σ where
  reads := hrd
  within := .refl h _ _
  queue q hq := ⟨[], q, rfl, (List.append_nil _).symm, hq⟩
  asleep ht _ := ht
  taken ht x hx := by
    rw [(he x hx).1]
    exact .inl ht
  ret x hx := (he x hx).2.imp_right fun hret => hret.trans hrd.ret_eq

/-- The first part of a segment, and the rest of it. -/
theorem ConsRead.trans {rd1 rd2 : Reader} {e : Option Ended} (h1 : ConsRead K r sz addr n rd rd1 none σ τ)
    (h2 : ConsRead K r sz addr n rd1 rd2 e τ σ') : ConsRead K r sz addr n rd rd2 e σ σ' where
  reads := h2.reads
  within := h1.within.trans h2.within
  queue q hq := by
    obtain ⟨new, rest, rfl, htaken, hrest⟩ := h1.queue q hq
    obtain ⟨new', rest', rfl, htaken', hrest'⟩ := h2.queue rest hrest
    exact ⟨new ++ new', rest', (List.append_assoc ..).symm, by rw [htaken', htaken, List.append_assoc], hrest'⟩
  asleep ht he := h2.asleep (h1.asleep ht rfl) he
  taken ht := h2.taken (h1.asleep ht rfl)
  ret := h2.ret

end Console

section Inode

variable {sb : Fs.Superblock} {ip : Fs.Ip} {n : ℕ}

end Inode

end Xv6.Read
