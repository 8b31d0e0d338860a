import Mathlib.Logic.Function.Basic
import Mathlib.Order.Basic

/-! The parser of `sh.c`. A command line is a list of characters that ends where C ends the string; a
pointer into it is an index. The nodes of the tree point to the ends of their words until
`nulterminate` writes there. -/

namespace Xv6Container.Shell

open Function

def nul : Char := '\x00'

def MAXARGS : ℕ := 10

def O_RDONLY : ℕ := 0x000
def O_WRONLY : ℕ := 0x001
def O_CREATE : ℕ := 0x200

def whitespace : List Char := [' ', '\t', '\r', '\n', '\x0b']

def symbols : List Char := ['<', '|', '>', '&', ';', '(', ')']

/-- What the parser does instead of returning; without fuel a loop or a recursion has not ended. -/
inductive Stop
  | panic (s : String)
  | fuel
  deriving DecidableEq

inductive Cmd
  /-- `argv` and `eargv` -/
  | exec (argv : List (ℕ × ℕ))
  | redir (cmd : Cmd) (file efile mode fd : ℕ)
  | pipe (left right : Cmd)
  | list (left right : Cmd)
  | back (cmd : Cmd)

/-- The next argument goes into the node that `execcmd` made, below the redirections. -/
def Cmd.addArg (q eq : ℕ) : Cmd → Cmd
  | .exec argv => .exec (argv ++ [(q, eq)])
  | .redir cmd file efile mode fd => .redir (cmd.addArg q eq) file efile mode fd
  | cmd => cmd

variable (text : List Char)

/-- `*s` -/
def char (s : ℕ) : Char := text.getD s nul

/-- Move `s` over characters that pass the test, `n` at most. -/
def scan (p : Char → Bool) : ℕ → ℕ → ℕ
  | 0, s => s
  | n + 1, s => if p (char text s) then scan p n (s + 1) else s

/-- `while(s < es && strchr(whitespace, *s)) s++` -/
def skip (s : ℕ) : ℕ := scan text (fun c => c ∈ whitespace) (text.length - s) s

/-- A character of a word. -/
def inWord (c : Char) : Bool := c ∉ whitespace ∧ c ∉ symbols

/-- The token, its ends, and where the next one begins. -/
def gettoken (s : ℕ) : Char × ℕ × ℕ × ℕ :=
  let q := skip text s
  let c := char text q
  let (ret, eq) :=
    if c = nul then (c, q)
    else if c = '|' ∨ c = '(' ∨ c = ')' ∨ c = ';' ∨ c = '&' ∨ c = '<' then (c, q + 1)
    else if c = '>' then
      if char text (q + 1) = '>' then ('+', q + 2) else (c, q + 1)
    else ('a', scan text inWord (text.length - q) q)
  (ret, q, eq, skip text eq)

/-- Whether one of `toks` comes next, and where. -/
def peek (s : ℕ) (toks : List Char) : Bool × ℕ :=
  let s := skip text s
  (char text s ≠ nul ∧ char text s ∈ toks, s)

def parseredirs : ℕ → Cmd → ℕ → Except Stop (Cmd × ℕ)
  | 0, _, _ => .error .fuel
  | fuel + 1, cmd, s =>
    let (more, s) := peek text s ['<', '>']
    if more then
      let (tok, _, _, s) := gettoken text s
      let (word, q, eq, s) := gettoken text s
      if word ≠ 'a' then .error (.panic "missing file for redirection")
      else
        let cmd :=
          if tok = '<' then .redir cmd q eq O_RDONLY 0
          else if tok = '>' then .redir cmd q eq (O_WRONLY ||| O_CREATE) 1
          else if tok = '+' then .redir cmd q eq (O_WRONLY ||| O_CREATE) 1
          else cmd
        parseredirs fuel cmd s
    else .ok (cmd, s)

/-- The loop of `parseexec`. -/
def argLoop : ℕ → ℕ → Cmd → ℕ → Except Stop (Cmd × ℕ)
  | 0, _, _, _ => .error .fuel
  | fuel + 1, argc, ret, s =>
    let (stop, s) := peek text s ['|', ')', '&', ';']
    if stop then .ok (ret, s)
    else
      let (tok, q, eq, s) := gettoken text s
      if tok = nul then .ok (ret, s)
      else if tok ≠ 'a' then .error (.panic "syntax")
      else if argc + 1 ≥ MAXARGS then .error (.panic "too many args")
      else do
        let (ret, s) ← parseredirs text fuel (ret.addArg q eq) s
        argLoop fuel (argc + 1) ret s

/-- The loop of `parseline`. -/
def backLoop : ℕ → Cmd → ℕ → Except Stop (Cmd × ℕ)
  | 0, _, _ => .error .fuel
  | fuel + 1, cmd, s =>
    let (more, s) := peek text s ['&']
    if more then
      let (_, _, _, s) := gettoken text s
      backLoop fuel (.back cmd) s
    else .ok (cmd, s)

mutual

def parseline : ℕ → ℕ → Except Stop (Cmd × ℕ)
  | 0, _ => .error .fuel
  | fuel + 1, s => do
    let (cmd, s) ← parsepipe fuel s
    let (cmd, s) ← backLoop text fuel cmd s
    let (more, s) := peek text s [';']
    if more then
      let (_, _, _, s) := gettoken text s
      let (right, s) ← parseline fuel s
      return (.list cmd right, s)
    else return (cmd, s)

def parsepipe : ℕ → ℕ → Except Stop (Cmd × ℕ)
  | 0, _ => .error .fuel
  | fuel + 1, s => do
    let (cmd, s) ← parseexec fuel s
    let (more, s) := peek text s ['|']
    if more then
      let (_, _, _, s) := gettoken text s
      let (right, s) ← parsepipe fuel s
      return (.pipe cmd right, s)
    else return (cmd, s)

def parseblock : ℕ → ℕ → Except Stop (Cmd × ℕ)
  | 0, _ => .error .fuel
  | fuel + 1, s =>
    let (more, s) := peek text s ['(']
    if more then do
      let (_, _, _, s) := gettoken text s
      let (cmd, s) ← parseline fuel s
      let (more, s) := peek text s [')']
      if more then
        let (_, _, _, s) := gettoken text s
        parseredirs text fuel cmd s
      else .error (.panic "syntax - missing )")
    else .error (.panic "parseblock")

def parseexec : ℕ → ℕ → Except Stop (Cmd × ℕ)
  | 0, _ => .error .fuel
  | fuel + 1, s =>
    let (block, s) := peek text s ['(']
    if block then parseblock fuel s
    else do
      let (ret, s) ← parseredirs text fuel (.exec []) s
      argLoop text fuel 0 ret s

end

/-- Write a NUL after every word. -/
def nulterminate : Cmd → (ℕ → Char) → ℕ → Char
  | .exec argv, buf => argv.foldl (fun buf arg => update buf arg.2 nul) buf
  | .redir cmd _ efile _ _, buf => update (nulterminate cmd buf) efile nul
  | .pipe left right, buf => nulterminate right (nulterminate left buf)
  | .list left right, buf => nulterminate right (nulterminate left buf)
  | .back cmd, buf => nulterminate cmd buf

/-- The tree, and the buffer that its pointers lead into. -/
def parsecmd : Except Stop (Cmd × (ℕ → Char)) := do
  let (cmd, s) ← parseline text (4 * text.length + 4) 0
  let (_, s) := peek text s []
  if s ≠ text.length then .error (.panic "syntax")
  else return (cmd, nulterminate cmd (char text))

end Xv6Container.Shell
