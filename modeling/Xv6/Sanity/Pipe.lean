import Xv6.Spec.Pipe
import Xv6.Sanity.Client

/-! What the steps of the code of a pipe do to it. -/

namespace Xv6.Pipe

open Proc

/-- The steps on the pipe. -/
inductive Acts (d : Pipe) : Point → Point → Pipe → Prop
  | pipewrite (ret : ℤ) (mem : ℕ → Option UInt8) (n : ℤ) :
      Acts d (.idle ret) (.writeEnter d.calls.length mem n) { d with calls := d.calls ++ [mem] }
  | piperead (ret n : ℤ) : Acts d (.idle ret) (.readEnter n) d
  | pipeclose (ret : ℤ) (writable : Bool) : Acts d (.idle ret) (.closeEnter writable) d
  | kkill (ret : ℤ) (pid : Int32) : Acts d (.idle ret) (.kill pid) d
  | kfork (ret : ℤ) : Acts d (.idle ret) .fork d
  | kexit (ret : ℤ) (status : Int32) : Acts d (.idle ret) (.exit status) d
  | kwait (ret : ℤ) : Acts d (.idle ret) .wait d
  | goOn {w : ℕ} {mem : ℕ → Option UInt8} {n : ℤ} {i : ℕ} {owed : Bool} (hopen : d.readopen = true) :
      Acts d (.writeTest w mem n i owed) (.writeKilled w mem n i owed) d
  | closed {w : ℕ} {mem : ℕ → Option UInt8} {n : ℤ} {i : ℕ} {owed : Bool} (hopen : d.readopen = false) :
      Acts d (.writeTest w mem n i owed) (.writeFail false) d
  | allWritten {w : ℕ} {mem : ℕ → Option UInt8} {n : ℤ} {i : ℕ} {owed : Bool} :
      Acts d (.writeTest w mem n i owed) (.writeWake i owed) d
  | isFull {w : ℕ} {mem : ℕ → Option UInt8} {n : ℤ} {i : ℕ} {owed : Bool} (hfull : d.full) :
      Acts d (.writePut w mem n i owed) (.writeFull w mem n i owed) d
  | noByte {w : ℕ} {mem : ℕ → Option UInt8} {n : ℤ} {i : ℕ} {owed : Bool} :
      Acts d (.writePut w mem n i owed) (.writeWake i owed) d
  | put {w : ℕ} {mem : ℕ → Option UInt8} {n : ℤ} {i : ℕ} {owed : Bool} {ch : UInt8} (hroom : ¬ d.full)
      (hm : mem i = some ch) : Acts d (.writePut w mem n i owed) (.writeTest w mem n (i + 1) true) (d.put w ch)
  | isEmpty {n : ℤ} (hempty : d.empty) (hopen : d.writeopen = true) : Acts d (.readTest n) (.readKilled n) d
  | begin {n : ℤ} : Acts d (.readTest n) (.readCopy d.reads n 0) { d with reads := d.reads + 1 }
  | allRead {r : ℕ} {n : ℤ} {i : ℕ} : Acts d (.readCopy r n i) (.readWake i (decide (0 < i))) d
  | lose {r : ℕ} {n : ℤ} {i : ℕ} (hsome : ¬ d.empty) : Acts d (.readCopy r n i) (.readWake i true) (d.take r)
  | take {r : ℕ} {n : ℤ} {i : ℕ} (hsome : ¬ d.empty) : Acts d (.readCopy r n i) (.readCopy r n (i + 1)) (d.take r)
  | closeWrite : Acts d (.closeSet true) (.closeWake true) { d with writeopen := false }
  | closeRead : Acts d (.closeSet false) (.closeWake false) { d with readopen := false }

variable {script : ℕ → Call} {k k' : Point} {f : ℕ → Pipe → Option (Pipe × Point)} {c : ℕ} {d d' : Pipe}

theorem acts_of_act (hk : code script k = .act f) (hf : f c d = some (d', k')) : Acts d k k' d' := by
  cases k with
  | idle ret =>
    cases hk
    simp only at hf
    cases hs : script c <;> simp only [hs, Option.some.injEq, Prod.mk.injEq] at hf <;> obtain ⟨rfl, rfl⟩ := hf
    · exact .pipewrite ret _ _
    · exact .piperead ret _
    · exact .pipeclose ret _
    · exact .kkill ret _
    · exact .kfork ret
    · exact .kexit ret _
    · exact .kwait ret
  | writeTest w mem n i owed =>
    cases hk
    simp only at hf
    split_ifs at hf with hi hopen <;> obtain ⟨rfl, rfl⟩ := Prod.mk.inj (Option.some.inj hf)
    · exact .goOn hopen
    · exact .closed (Bool.eq_false_of_not_eq_true hopen)
    · exact .allWritten
  | writePut w mem n i owed =>
    cases hk
    simp only at hf
    split_ifs at hf with hfull
    · obtain ⟨rfl, rfl⟩ := Prod.mk.inj (Option.some.inj hf)
      exact .isFull hfull
    · cases hm : mem i with
      | none =>
        simp only [hm, Option.some.injEq, Prod.mk.injEq] at hf
        obtain ⟨rfl, rfl⟩ := hf
        exact .noByte
      | some ch =>
        simp only [hm, Option.some.injEq, Prod.mk.injEq] at hf
        obtain ⟨rfl, rfl⟩ := hf
        exact .put hfull hm
  | readTest n =>
    cases hk
    simp only at hf
    split_ifs at hf with hno <;> obtain ⟨rfl, rfl⟩ := Prod.mk.inj (Option.some.inj hf)
    · exact .isEmpty hno.1 hno.2
    · exact .begin
  | readCopy r n i =>
    cases hk
    simp only at hf
    split_ifs at hf with hi hempty hc <;> obtain ⟨rfl, rfl⟩ := Prod.mk.inj (Option.some.inj hf)
    · exact .allRead
    · exact .lose hempty
    · exact .take hempty
    · exact .allRead
  | closeSet writable =>
    cases hk
    simp only at hf
    cases writable <;> obtain ⟨rfl, rfl⟩ := Prod.mk.inj (Option.some.inj hf)
    · exact .closeRead
    · exact .closeWrite
  | _ => cases hk

/-- Processes begin, and come back from the calls of others, outside of the pipe's code. -/
theorem idle_of_entry (h : Entry (code script) (.idle 0) k) : ∃ ret, k = .idle ret := by
  cases h with
  | start => exact ⟨0, rfl⟩
  | @kkill k pid k' r hk | @kfork k child k' r hk | @child k child k' hk | @kwait k k' r hk =>
    cases k <;> cases hk
    exact ⟨_, rfl⟩

end Xv6.Pipe
