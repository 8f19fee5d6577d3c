import Xv6.User.Sh

/-!
The language of the shell. `lex` cuts a line into tokens, `Derives` says which sequences of
tokens are lines, pipelines and commands, and which tree each of them stands for.
-/

namespace Xv6
namespace Sh

abbrev Word := List UInt8

inductive Token where
  | bar | lparen | rparen | semi | amp | lt | gt | gtgt
  | word (w : Word)
  deriving DecidableEq, Repr

/-- The symbols of one character other than `>`. -/
def symbolToken (c : UInt8) : Option Token :=
  if c = BAR then some .bar
  else if c = LPAREN then some .lparen
  else if c = RPAREN then some .rparen
  else if c = SEMI then some .semi
  else if c = AMP then some .amp
  else if c = LT then some .lt
  else none

/-- Words are maximal runs of characters that are neither whitespace nor symbols. -/
def lex : List UInt8 → List Token
  | [] => []
  | c :: l =>
      if isSpace c then lex l
      else match symbolToken c with
        | some t => t :: lex l
        | none =>
            if c = GT then if l.head? = some GT then .gtgt :: lex l.tail else .gt :: lex l
            else .word (c :: l.takeWhile isWord) :: lex (l.dropWhile isWord)
termination_by l => l.length
decreasing_by
  all_goals simp only [List.length_cons, List.length_tail]
  all_goals have := (List.dropWhile_sublist (l := l) isWord).length_le
  all_goals omega

inductive Tree where
  | exec (argv : List Word)
  | redir (cmd : Tree) (file : Word) (mode fd : ℕ)
  | pipe (left right : Tree)
  | list (left right : Tree)
  | back (cmd : Tree)
  deriving DecidableEq, Repr

structure Redirection where
  file : Word
  mode : ℕ
  fd : ℕ
  deriving DecidableEq, Repr

/-- Redirections wrap outward in order of occurrence. -/
def Tree.wrap (t : Tree) (rs : List Redirection) : Tree :=
  rs.foldl (fun t r => .redir t r.file r.mode r.fd) t

/-- How an operator opens its file. -/
def Token.opens : Token → Option (ℕ × ℕ)
  | .lt => some (O_RDONLY, 0)
  | .gt => some (O_WRONLY ||| O_CREATE ||| O_TRUNC, 1)
  | .gtgt => some (O_WRONLY ||| O_CREATE, 1)
  | _ => none

/-- `redir*`, where `redir := ('<' | '>' | '>>') word`. -/
inductive Redirs : List Token → List Redirection → Prop
  | nil : Redirs [] []
  | cons {op : Token} {w : Word} {mode fd : ℕ} {ts : List Token} {rs : List Redirection}
      (hop : op.opens = some (mode, fd)) (h : Redirs ts rs) :
      Redirs (op :: .word w :: ts) (⟨w, mode, fd⟩ :: rs)

/-- `(word redir*)*`. -/
inductive Args : List Token → List Word → List Redirection → Prop
  | nil : Args [] [] []
  | cons {w : Word} {r ts : List Token} {ws : List Word} {a b : List Redirection}
      (hr : Redirs r a) (h : Args ts ws b) : Args (.word w :: (r ++ ts)) (w :: ws) (a ++ b)

inductive Symbol where
  | line | pipe | cmd
  deriving DecidableEq, Repr

/-- `line := pipe '&'* [';' line]`, `pipe := cmd ['|' pipe]` and
`cmd := '(' line ')' redir* | redir* (word redir*)*`. -/
inductive Derives : Symbol → List Token → Tree → Prop
  | line {p : List Token} {t : Tree} (k : ℕ) (hp : Derives .pipe p t) :
      Derives .line (p ++ List.replicate k .amp) (Tree.back^[k] t)
  | lines {p l : List Token} {t u : Tree} (k : ℕ) (hp : Derives .pipe p t)
      (hl : Derives .line l u) :
      Derives .line (p ++ List.replicate k .amp ++ .semi :: l) (.list (Tree.back^[k] t) u)
  | single {c : List Token} {t : Tree} (hc : Derives .cmd c t) : Derives .pipe c t
  | pipe {c p : List Token} {t u : Tree} (hc : Derives .cmd c t) (hp : Derives .pipe p u) :
      Derives .pipe (c ++ .bar :: p) (.pipe t u)
  | block {l r : List Token} {t : Tree} {a : List Redirection} (hl : Derives .line l t)
      (hr : Redirs r a) : Derives .cmd (.lparen :: (l ++ .rparen :: r)) (t.wrap a)
  | simple {r ts : List Token} {ws : List Word} {a b : List Redirection} (hr : Redirs r a)
      (hts : Args ts ws b) (hn : ws.length ≤ MAXARGS - 1) :
      Derives .cmd (r ++ ts) ((Tree.exec ws).wrap (a ++ b))

end Sh
end Xv6
