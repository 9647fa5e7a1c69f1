import Xv6.Proofs.ShellGrammar
import Xv6.Spec.ShRun

/-! Redirections. The tree has the last one of the text outside, so that `runcmd` opens the files from the last to the first. -/

namespace Xv6.Sh

variable {text : List UInt8} {toks : List Tok} {rs : List Redirection} {r : Redirection} {c : Cmd (List UInt8)} {t : Ofile} {d : ℕ}

/-- A simple command or a block, and its redirections in the order of the text. -/
inductive Command : List Tok → List Redirection → Cmd (List UInt8) → Prop where
  | simple {ts us : List Tok} {ws : List (List UInt8)} {rs rs' : List Redirection} (hr : Redirs ts rs) (hw : Words us ws rs')
      (hlen : ws.length ≤ 9) : Command (ts ++ us) (rs ++ rs') (.exec ws)
  | block {ts us : List Tok} {c : Cmd (List UInt8)} {rs : List Redirection} (h : Derives .line ts c) (hr : Redirs us rs) :
      Command (.lpar :: (ts ++ .rpar :: us)) rs c

section Descriptors

/-- Standard input, output and error. -/
def StdOpen (t : Ofile) : Prop := ∃ f0 f1 f2 rest, t = some f0 :: some f1 :: some f2 :: rest

def redirect (r : Redirection) (t : Ofile) : Ofile := t.set r.fd (some (.path r.file r.mode))

theorem Redirs.fd (h : Redirs toks rs) : ∀ r ∈ rs, r.fd = 0 ∨ r.fd = 1 := by
  induction h with
  | nil => exact nofun
  | @cons tok f mode fd ts rs ht h ih =>
    refine List.forall_mem_cons.mpr ⟨?_, ih⟩
    cases tok <;> simp only [Tok.redirection, Option.some.injEq, Prod.mk.injEq, reduceCtorEq] at ht
    · exact .inl ht.2.symm
    · exact .inr ht.2.symm
    · exact .inr ht.2.symm

theorem Words.fd {ws : List (List UInt8)} (h : Words toks ws rs) : ∀ r ∈ rs, r.fd = 0 ∨ r.fd = 1 := by
  induction h with
  | nil => exact nofun
  | cons hr h ih => exact List.forall_mem_append.mpr ⟨hr.fd, ih⟩

theorem Command.fd (h : Command toks rs c) : ∀ r ∈ rs, r.fd = 0 ∨ r.fd = 1 := by
  cases h with
  | simple hr hw hlen => exact List.forall_mem_append.mpr ⟨hr.fd, hw.fd⟩
  | block h hr => exact hr.fd

theorem StdOpen.redirect (h : StdOpen t) (hr : r.fd = 0 ∨ r.fd = 1) : StdOpen (redirect r t) := by
  obtain ⟨f0, f1, f2, rest, rfl⟩ := h
  unfold Sh.redirect
  rcases hr with hr | hr
  · rw [hr]
    exact ⟨_, _, _, _, rfl⟩
  · rw [hr]
    exact ⟨_, _, _, _, rfl⟩

/-- The descriptor that was closed is the one that `open` gets. -/
theorem StdOpen.runcmd (h : StdOpen t) (hr : r.fd = 0 ∨ r.fd = 1) (n : ℕ) : runcmd n (c.wrap r) t = runcmd n c (Sh.redirect r t) := by
  obtain ⟨f0, f1, f2, rest, rfl⟩ := h
  rw [Cmd.wrap, Sh.runcmd, Sh.redirect]
  rcases hr with hr | hr
  · rw [hr]
    rfl
  · rw [hr]
    rfl

/-- The file of a redirection, or what was open before. -/
def opened (t : Ofile) (d : ℕ) : Option Redirection → Option (Option File)
  | some r => some (some (.path r.file r.mode))
  | none => t[d]?

end Descriptors

/-- Three descriptors at the console. -/
def console : Ofile := List.replicate 3 (some (.device 1)) ++ List.replicate 13 none

end Xv6.Sh
