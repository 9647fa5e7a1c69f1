import Xv6.Proofs.Redirections

/-! Pipelines. What `runcmd` does with `close`, `dup` and `pipe` comes to a choice of three streams
for each program. -/

namespace Xv6.Sh

/-- What a program has as standard input, output and error. -/
structure Streams where
  input : File
  output : File
  error : File

/-- The three streams and nothing else, with room for a pipe. -/
def Streams.ofile (f : Streams) (k : ℕ) : Ofile :=
  some f.input :: some f.output :: some f.error :: List.replicate (k + 2) none

/-- The programs of a command and their streams. -/
def plumb : ℕ → Cmd (List UInt8) → Streams → List (List (List UInt8) × Streams)
  | _, .exec argv, f => if argv = [] then [] else [(argv, f)]
  | n, .redir cmd file mode fd, f =>
    plumb n cmd (if fd = 0 then { f with input := .path file mode } else { f with output := .path file mode })
  | n, .list left right, f => plumb (2 * n + 1) left f ++ plumb (2 * n + 2) right f
  | n, .pipe left right, f =>
    plumb (2 * n + 1) left { f with output := .pipe n true } ++ plumb (2 * n + 2) right { f with input := .pipe n false }
  | n, .back cmd, f => plumb n cmd f

/-- Only standard input and output are redirected. -/
def Cmd.Standard : Cmd (List UInt8) → Prop
  | .exec _ => True
  | .redir cmd _ _ fd => (fd = 0 ∨ fd = 1) ∧ cmd.Standard
  | .list left right | .pipe left right => left.Standard ∧ right.Standard
  | .back cmd => cmd.Standard

section Trees

variable {c : Cmd (List UInt8)} {rs : List Redirection}

theorem Cmd.Standard.wrap (h : c.Standard) (hfd : ∀ r ∈ rs, r.fd = 0 ∨ r.fd = 1) : (rs.foldl Cmd.wrap c).Standard := by
  induction rs generalizing c with
  | nil => exact h
  | cons r rs ih =>
    obtain ⟨hr, hrs⟩ := List.forall_mem_cons.mp hfd
    exact ih (c := c.wrap r) ⟨hr, h⟩ hrs

theorem Cmd.Standard.back (h : c.Standard) (n : ℕ) : (Cmd.back^[n] c).Standard := by
  induction n generalizing c with
  | zero => exact h
  | succ n ih => exact ih (c := c.back) h

theorem Derives.standard {k : Nonterminal} {toks : List Tok} (h : Derives k toks c) : c.Standard := by
  induction h with
  | line n _ ih => exact ih.back n
  | list n _ _ ih ih' => exact ⟨ih.back n, ih'⟩
  | single _ ih => exact ih
  | pipe _ _ ih ih' => exact ⟨ih, ih'⟩
  | block _ hr ih => exact ih.wrap hr.fd
  | words hr hw _ => exact Cmd.Standard.wrap trivial (List.forall_mem_append.mpr ⟨hr.fd, hw.fd⟩)

/-- A descriptor that is closed is the next to be used, and each side of a pipe closes what it does not use. -/
theorem runcmd_plumb (h : c.Standard) (n k : ℕ) (f : Streams) :
    runcmd n c (f.ofile k) = (plumb n c f).map fun p => ⟨p.1, p.2.ofile k⟩ := by
  induction c generalizing n f with
  | exec argv =>
    simp only [runcmd, plumb]
    split_ifs <;> rfl
  | redir c file mode fd ih =>
    rcases h with ⟨rfl | rfl, h⟩
    · exact ih h n { f with input := .path file mode }
    · exact ih h n { f with output := .path file mode }
  | list l r ihl ihr => simp only [runcmd, plumb, ihl h.1, ihr h.2, List.map_append]
  | pipe l r ihl ihr =>
    rw [plumb, List.map_append, ← ihl h.1, ← ihr h.2]
    rfl
  | back c ih => exact ih h n f

end Trees

/-- The two ends of one pipe. -/
def Streams.Loop (f : Streams) : Prop := ∃ i, f.output = .pipe i true ∧ f.input = .pipe i false

/-- The pipes in `f` are of commands around the one with the number `n`. -/
def Streams.Outer (n : ℕ) (f : Streams) : Prop := (∀ i, f.input = .pipe i false → i < n) ∧ ∀ i, f.output = .pipe i true → i < n

theorem plumb_loop {n : ℕ} {c : Cmd (List UInt8)} {f : Streams} (hf : f.Outer n) (hloop : ¬ f.Loop) :
    ∀ p ∈ plumb n c f, ¬ p.2.Loop := by
  induction c generalizing n f with
  | exec argv =>
    rw [plumb]
    split_ifs
    · simp
    · simpa using hloop
  | redir c file mode fd ih => exact ih (by split_ifs <;> grind [Streams.Outer]) (by split_ifs <;> grind [Streams.Loop])
  | list l r ihl ihr =>
    refine List.forall_mem_append.mpr ⟨ihl ?_ hloop, ihr ?_ hloop⟩
    all_goals grind [Streams.Outer]
  | pipe l r ihl ihr =>
    -- the number of the pipe is larger than those around it and smaller than those inside
    refine List.forall_mem_append.mpr ⟨ihl ?_ ?_, ihr ?_ ?_⟩
    all_goals grind [Streams.Outer, Streams.Loop]
  | back c ih => exact ih hf hloop

/-- **Pipelines.** Whatever line the shell is given, every program that it starts has its three streams open and no other
descriptor, so that no end of a pipe is left over, and none is given both ends of one pipe. -/
theorem runcmd_pipelines {text buf : List UInt8} (h0 : 0 ∉ text) {tree : Cmd Span} (hparse : parsecmd text = .ok (tree, buf))
    {f : Streams} (hf : ∀ i b, f.input ≠ .pipe i b ∧ f.output ≠ .pipe i b) (k : ℕ) : ∃ ps,
    runcmd 0 (tree.inBuffer buf) (f.ofile k) = ps.map (fun p => ⟨p.1, p.2.ofile k⟩) ∧ ps = plumb 0 (tree.inBuffer buf) f ∧
    ∀ p ∈ ps, ¬ p.2.Loop := by
  obtain ⟨ts, hts⟩ := exists_toks text.length 0 (Nat.zero_le _) (Nat.zero_add _).ge
  have hstd := ((parsecmd_sound h0 hts).1 _ _ hparse).standard
  refine ⟨_, runcmd_plumb hstd 0 k f, rfl, plumb_loop ⟨fun i h => absurd h (hf i _).1, fun i h => absurd h (hf i _).2⟩ ?_⟩
  rintro ⟨i, h, -⟩
  exact (hf i _).2 h

/-- `x|y` -/
theorem runcmd_pipelines_two : ∃ tree buf, parsecmd [120, 124, 121] = .ok (tree, buf) ∧ runcmd 0 (tree.inBuffer buf) console =
    [⟨[[120]], console.set 1 (some (.pipe 0 true))⟩, ⟨[[121]], console.set 0 (some (.pipe 0 false))⟩] := by
  have hrun : (parsecmd [120, 124, 121]).toOption.any (fun r => r.1.inBuffer r.2 = .pipe (.exec [[120]]) (.exec [[121]])) = true := by
    decide +kernel
  obtain ⟨⟨tree, buf⟩, hparse, htree⟩ := Wp.ok_of_any hrun
  obtain ⟨ps, hps, rfl, -⟩ := runcmd_pipelines (by decide) hparse (f := ⟨.device 1, .device 1, .device 1⟩) (by simp) 11
  refine ⟨tree, buf, hparse, hps.trans ?_⟩
  rw [of_decide_eq_true htree]
  rfl

end Xv6.Sh
