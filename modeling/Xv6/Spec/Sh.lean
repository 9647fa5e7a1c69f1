import Xv6.Lib.Wp

/-! The parser of `user/sh.c`. A pointer into the text is an index into the string, which stands without its NUL. -/

namespace Xv6.Sh

open Wp

/-- Why the parser does not return: `panic`, a byte behind the end of the string, or a loop without an end. -/
inductive Stop where
  | panic (msg : String)
  | outside
  | hang
  deriving DecidableEq

/-- `*ps` is the state. -/
abbrev ParseM := StateT ℕ (Except Stop)

def MAXARGS : ℕ := 10

def O_RDONLY : ℕ := 0x000
def O_WRONLY : ℕ := 0x001
def O_CREATE : ℕ := 0x200
def O_TRUNC : ℕ := 0x400

/-- `struct cmd` and its kinds, with words of any type. -/
inductive Cmd (α : Type) where
  | exec (argv : List α)
  | redir (cmd : Cmd α) (file : α) (mode fd : ℕ)
  | pipe (left right : Cmd α)
  | list (left right : Cmd α)
  | back (cmd : Cmd α)
  deriving DecidableEq

/-- A word of the text: where it starts, and where it has ended. -/
abbrev Span := ℕ × ℕ

/-- One more argument for the `struct execcmd`, which the parser reaches through `cmd` when it is already below
redirections. -/
def Cmd.push {α : Type} (a : α) : Cmd α → Cmd α
  | .exec argv => .exec (argv ++ [a])
  | .redir cmd file mode fd => .redir (cmd.push a) file mode fd
  | cmd => cmd

/-- `" \t\r\n\v"` -/
def whitespace : List UInt8 := [32, 9, 13, 10, 11]

/-- `"<|>&;()"` -/
def symbols : List UInt8 := [60, 124, 62, 38, 59, 40, 41]

def strchr (s : List UInt8) (c : UInt8) : Bool := s.contains c

section Line

variable (text : List UInt8)

/-- `*s` -/
def deref (s : ℕ) : Except Stop UInt8 :=
  match text[s]? with
  | some c => .ok c
  | none => if s = text.length then .ok 0 else .error .outside

/-- `while(s < es && test(*s)) s++`, `k` passes at most. -/
def advance (test : UInt8 → Bool) : ℕ → ℕ → Except Stop ℕ
  | 0, _ => .error .hang
  | k + 1, s =>
    if s < text.length then do
      if test (← deref text s) then advance test k (s + 1) else pure s
    else pure s

def skip (s : ℕ) : Except Stop ℕ := advance text (strchr whitespace) (text.length + 1) s

def isWordByte (c : UInt8) : Bool := !strchr whitespace c && !strchr symbols c

/-- The kind of a token, `'a'` for a word and `'+'` for `>>`, and where it starts and ends. -/
def gettoken : ParseM (UInt8 × ℕ × ℕ) := do
  let q ← skip text (← get)
  let c ← deref text q
  let (ret, eq) ←
    if c = 0 then pure (c, q)
    else if strchr [124, 40, 41, 59, 38, 60] c then pure (c, q + 1) -- | ( ) ; & <
    else if c = 62 then do -- >
      if (← deref text (q + 1)) = 62 then pure (43, q + 2) else pure (c, q + 1)
    else do
      let eq ← advance text isWordByte (text.length + 1) q
      pure (97, eq)
  set (← skip text eq)
  return (ret, q, eq)

def peek (toks : List UInt8) : ParseM Bool := do
  let s ← skip text (← get)
  set s
  let c ← deref text s
  return c ≠ 0 && strchr toks c

/-- The loop of `parseredirs`, `k` passes at most. -/
def parseredirsFrom : ℕ → Cmd Span → ParseM (Cmd Span)
  | 0, _ => throw .hang
  | k + 1, cmd => do
    if ← peek text [60, 62] then -- <>
      let (tok, _, _) ← gettoken text
      let (a, q, eq) ← gettoken text
      if a ≠ 97 then throw (.panic "missing file for redirection")
      else if tok = 60 then parseredirsFrom k (.redir cmd (q, eq) O_RDONLY 0)
      else if tok = 62 then parseredirsFrom k (.redir cmd (q, eq) (O_WRONLY ||| O_CREATE ||| O_TRUNC) 1)
      else if tok = 43 then parseredirsFrom k (.redir cmd (q, eq) (O_WRONLY ||| O_CREATE) 1)
      else parseredirsFrom k cmd
    else pure cmd

def parseredirs (cmd : Cmd Span) : ParseM (Cmd Span) := parseredirsFrom text (text.length + 1) cmd

/-- The loop of `parseexec` over the words, `k` passes at most. -/
def parseargsFrom : ℕ → ℕ → Cmd Span → ParseM (Cmd Span)
  | 0, _, _ => throw .hang
  | k + 1, argc, ret => do
    if ← peek text [124, 41, 38, 59] then pure ret -- |)&;
    else
      let (tok, q, eq) ← gettoken text
      if tok = 0 then pure ret
      else if tok ≠ 97 then throw (.panic "syntax")
      else
        let ret := ret.push (q, eq)
        let argc := argc + 1
        if MAXARGS ≤ argc then throw (.panic "too many args")
        else
          let ret ← parseredirs text ret
          parseargsFrom k argc ret

/-- The loop of `parseline` over `&`, `k` passes at most. -/
def parsebackFrom : ℕ → Cmd Span → ParseM (Cmd Span)
  | 0, _ => throw .hang
  | k + 1, cmd => do
    if ← peek text [38] then
      let _ ← gettoken text
      parsebackFrom k (.back cmd)
    else pure cmd

-- each call of another parser takes one from the fuel
mutual

def parseline : ℕ → ParseM (Cmd Span)
  | 0 => throw .hang
  | k + 1 => do
    let cmd ← parsepipe k
    let cmd ← parsebackFrom text (text.length + 1) cmd
    if ← peek text [59] then -- ;
      let _ ← gettoken text
      let right ← parseline k
      return .list cmd right
    else return cmd

def parsepipe : ℕ → ParseM (Cmd Span)
  | 0 => throw .hang
  | k + 1 => do
    let cmd ← parseexec k
    if ← peek text [124] then -- |
      let _ ← gettoken text
      let right ← parsepipe k
      return .pipe cmd right
    else return cmd

def parseexec : ℕ → ParseM (Cmd Span)
  | 0 => throw .hang
  | k + 1 => do
    if ← peek text [40] then parseblock k
    else
      let ret ← parseredirs text (.exec [])
      parseargsFrom text (text.length + 1) 0 ret

def parseblock : ℕ → ParseM (Cmd Span)
  | 0 => throw .hang
  | k + 1 => do
    if ← peek text [40] then
      let _ ← gettoken text
      let cmd ← parseline k
      if ← peek text [41] then
        let _ ← gettoken text
        parseredirs text cmd
      else throw (.panic "syntax - missing )")
    else throw (.panic "parseblock")

end

end Line

/-- `*p = 0` -/
def terminate (buf : List UInt8) (p : ℕ) : Except Stop (List UInt8) :=
  if p < buf.length then .ok (buf.set p 0) else .error .outside

/-- The text, now with its NUL, after every word has got a NUL. -/
def nulterminate : Cmd Span → List UInt8 → Except Stop (List UInt8)
  | .exec argv, buf => argv.foldlM (fun buf a => terminate buf a.2) buf
  | .redir cmd file _ _, buf => do
    let buf ← nulterminate cmd buf
    terminate buf file.2
  | .pipe left right, buf => do
    let buf ← nulterminate left buf
    nulterminate right buf
  | .list left right, buf => do
    let buf ← nulterminate left buf
    nulterminate right buf
  | .back cmd, buf => nulterminate cmd buf

/-- The tree, and the text after it. -/
def parsecmd (text : List UInt8) : Except Stop (Cmd Span × List UInt8) := do
  let (cmd, s) ← parseline text (4 * text.length + 4) 0
  let (_, s) ← peek text [] s
  if s ≠ text.length then throw (.panic "syntax")
  else
    let buf ← nulterminate cmd (text ++ [0])
    return (cmd, buf)

/-- The string at a pointer. -/
def cstring (buf : List UInt8) (s : ℕ) : List UInt8 := (buf.drop s).takeWhile (· ≠ 0)

def Cmd.map {α β : Type} (f : α → β) : Cmd α → Cmd β
  | .exec argv => .exec (argv.map f)
  | .redir cmd file mode fd => .redir (cmd.map f) (f file) mode fd
  | .pipe left right => .pipe (left.map f) (right.map f)
  | .list left right => .list (left.map f) (right.map f)
  | .back cmd => .back (cmd.map f)

/-- A tree with its words as the strings that they are in `buf`. -/
def Cmd.inBuffer (buf : List UInt8) (cmd : Cmd Span) : Cmd (List UInt8) := cmd.map fun a => cstring buf a.1

end Xv6.Sh
