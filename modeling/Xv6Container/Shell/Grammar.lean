import Xv6Container.Shell.Parse
import Mathlib.Data.List.Basic
import Mathlib.Logic.Function.Iterate

/-! What a command line means, apart from the parser: its tokens, and the grammar

    line  ::= pipe '&'* [';' line]
    pipe  ::= exec ['|' pipe]
    exec  ::= '(' line ')' redir* | (word | redir)*
    redir ::= ('<' | '>' | '>>') word

with fewer than `MAXARGS` words in one command. -/

namespace Xv6Container.Shell

inductive Op
  | input
  | output
  | append
  deriving DecidableEq

inductive Token
  | word (w : List Char)
  | redir (op : Op)
  | bar
  | lparen
  | rparen
  | semi
  | amp
  deriving DecidableEq

/-- The tokens that are single characters. -/
def single (c : Char) : Option Token :=
  if c = '|' then some .bar
  else if c = '(' then some .lparen
  else if c = ')' then some .rparen
  else if c = ';' then some .semi
  else if c = '&' then some .amp
  else if c = '<' then some (.redir .input)
  else none

/-- White space separates tokens, `>>` is one token, and words are as long as possible. -/
def tokens : List Char → List Token
  | [] => []
  | c :: s =>
    if c ∈ whitespace then tokens s
    else if c = '>' then
      if s.head? = some '>' then .redir .append :: tokens s.tail else .redir .output :: tokens s
    else match single c with
      | some t => t :: tokens s
      | none => .word (c :: s.takeWhile inWord) :: tokens (s.dropWhile inWord)
termination_by s => s.length
decreasing_by
  all_goals simp only [List.length_cons, List.length_tail]
  · omega
  · omega
  · omega
  · omega
  · have hle := (List.dropWhile_sublist inWord (l := s)).length_le
    omega

inductive Tree
  | exec (argv : List (List Char))
  | redir (cmd : Tree) (file : List Char) (mode fd : ℕ)
  | pipe (left right : Tree)
  | list (left right : Tree)
  | back (cmd : Tree)
  deriving DecidableEq

def Op.mode : Op → ℕ
  | .input => O_RDONLY
  | .output | .append => O_WRONLY ||| O_CREATE

/-- The descriptor that is redirected. -/
def Op.fd : Op → ℕ
  | .input => 0
  | .output | .append => 1

/-- A redirection goes around the command. -/
def Tree.wrap (t : Tree) (r : Op × List Char) : Tree := .redir t r.2 r.1.mode r.1.fd

inductive Item
  | word (w : List Char)
  | redir (r : Op × List Char)

def redirTokens (r : Op × List Char) : List Token := [.redir r.1, .word r.2]

def Item.tokens : Item → List Token
  | .word w => [.word w]
  | .redir r => redirTokens r

def words (items : List Item) : List (List Char) :=
  items.filterMap fun | .word w => some w | .redir _ => none

def redirs (items : List Item) : List (Op × List Char) :=
  items.filterMap fun | .word _ => none | .redir r => some r

inductive Sym
  | line
  | pipe
  | exec

/-- The derivations, with the trees that they determine. -/
inductive Derives : Sym → List Token → Tree → Prop
  | line {ts : List Token} {t : Tree} (k : ℕ) (h : Derives .pipe ts t) :
      Derives .line (ts ++ List.replicate k .amp) (Tree.back^[k] t)
  | list {ts ts' : List Token} {t t' : Tree} (k : ℕ) (h : Derives .pipe ts t)
      (h' : Derives .line ts' t') :
      Derives .line (ts ++ List.replicate k .amp ++ .semi :: ts') (.list (Tree.back^[k] t) t')
  | single {ts : List Token} {t : Tree} (h : Derives .exec ts t) : Derives .pipe ts t
  | pipe {ts ts' : List Token} {t t' : Tree} (h : Derives .exec ts t) (h' : Derives .pipe ts' t') :
      Derives .pipe (ts ++ .bar :: ts') (.pipe t t')
  | block {ts : List Token} {t : Tree} (rs : List (Op × List Char)) (h : Derives .line ts t) :
      Derives .exec (.lparen :: (ts ++ .rparen :: rs.flatMap redirTokens)) (rs.foldl .wrap t)
  | exec (items : List Item) (h : (words items).length < MAXARGS) :
      Derives .exec (items.flatMap Item.tokens) ((redirs items).foldl .wrap (.exec (words items)))

end Xv6Container.Shell
