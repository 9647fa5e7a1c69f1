import Xv6.Spec.Sh

/-! The grammar of the shell. -/

namespace Xv6.Sh

inductive Tok where
  | word (w : List UInt8)
  | lt
  | gt
  | append
  | bar
  | amp
  | semi
  | lpar
  | rpar
  deriving DecidableEq

/-- The token that `gettoken` reports as `ret`, over the bytes `w`. -/
def tokOf (ret : UInt8) (w : List UInt8) : Tok :=
  if ret = 60 then .lt
  else if ret = 62 then .gt
  else if ret = 43 then .append
  else if ret = 124 then .bar
  else if ret = 38 then .amp
  else if ret = 59 then .semi
  else if ret = 40 then .lpar
  else if ret = 41 then .rpar
  else .word w

/-- `gettoken` until there is nothing left, `k` times at most. -/
def tokensFrom (text : List UInt8) : ℕ → ParseM (List Tok)
  | 0 => throw .hang
  | k + 1 => do
    let (ret, q, eq) ← gettoken text
    if ret = 0 then return []
    else
      let ts ← tokensFrom text k
      return tokOf ret ((text.drop q).take (eq - q)) :: ts

def tokenise (text : List UInt8) : Except Stop (List Tok) := (tokensFrom text (text.length + 1)).run' 0

/-- How a file is opened, and as which descriptor. -/
structure Redirection where
  file : List UInt8
  mode : ℕ
  fd : ℕ

def Tok.redirection : Tok → Option (ℕ × ℕ)
  | .lt => some (O_RDONLY, 0)
  | .gt => some (O_WRONLY ||| O_CREATE ||| O_TRUNC, 1)
  | .append => some (O_WRONLY ||| O_CREATE, 1)
  | _ => none

/-- A later redirection is outside of an earlier one. -/
def Cmd.wrap (c : Cmd (List UInt8)) (r : Redirection) : Cmd (List UInt8) := .redir c r.file r.mode r.fd

/-- `redir*`, where `redir := ('<' | '>' | '>>') word` -/
inductive Redirs : List Tok → List Redirection → Prop where
  | nil : Redirs [] []
  | cons {t : Tok} {f : List UInt8} {mode fd : ℕ} {ts : List Tok} {rs : List Redirection} (ht : t.redirection = some (mode, fd))
      (h : Redirs ts rs) : Redirs (t :: .word f :: ts) (⟨f, mode, fd⟩ :: rs)

/-- `(word redir*)*` -/
inductive Words : List Tok → List (List UInt8) → List Redirection → Prop where
  | nil : Words [] [] []
  | cons {w : List UInt8} {ts us : List Tok} {ws : List (List UInt8)} {rs rs' : List Redirection} (hr : Redirs ts rs)
      (h : Words us ws rs') : Words (.word w :: (ts ++ us)) (w :: ws) (rs ++ rs')

inductive Nonterminal where
  | line
  | pipe
  | exec

/-- The lists of tokens that a nonterminal derives, and the tree of each:
`line := pipe '&'* [';' line]`, `pipe := exec ['|' pipe]`, `exec := '(' line ')' redir* | redir* (word redir*)*`. -/
inductive Derives : Nonterminal → List Tok → Cmd (List UInt8) → Prop where
  | line {ts : List Tok} {c : Cmd (List UInt8)} (n : ℕ) (h : Derives .pipe ts c) :
      Derives .line (ts ++ List.replicate n .amp) (Cmd.back^[n] c)
  | list {ts us : List Tok} {c d : Cmd (List UInt8)} (n : ℕ) (h : Derives .pipe ts c) (h' : Derives .line us d) :
      Derives .line (ts ++ List.replicate n .amp ++ .semi :: us) (.list (Cmd.back^[n] c) d)
  | single {ts : List Tok} {c : Cmd (List UInt8)} (h : Derives .exec ts c) : Derives .pipe ts c
  | pipe {ts us : List Tok} {c d : Cmd (List UInt8)} (h : Derives .exec ts c) (h' : Derives .pipe us d) :
      Derives .pipe (ts ++ .bar :: us) (.pipe c d)
  | block {ts us : List Tok} {c : Cmd (List UInt8)} {rs : List Redirection} (h : Derives .line ts c) (hr : Redirs us rs) :
      Derives .exec (.lpar :: (ts ++ .rpar :: us)) (rs.foldl Cmd.wrap c)
  | words {ts us : List Tok} {ws : List (List UInt8)} {rs rs' : List Redirection} (hr : Redirs ts rs) (hw : Words us ws rs')
      (hlen : ws.length ≤ 9) : Derives .exec (ts ++ us) ((rs ++ rs').foldl Cmd.wrap (.exec ws))

end Xv6.Sh
