import Mathlib.Tactic

/-!
The command parser of the shell, `sh.c`. A `char *` into the line is an offset; the line is
the list of its bytes without the final NUL, and the byte at its end reads as NUL. A `while`
loop takes the number of rounds it may still make; running out of them is a fault of its own.
-/

namespace Xv6
namespace Sh

def MAXARGS : ℕ := 10

/-- The bytes of `" \t\r\n\v"` and of `"<|>&;()"`. -/
def whitespace : List UInt8 := [32, 9, 13, 10, 11]
def symbols : List UInt8 := [60, 124, 62, 38, 59, 40, 41]

/-- The characters `| ( ) ; & < > + a`; the last two are the codes of `>>` and of a word. -/
def BAR : UInt8 := 124
def LPAREN : UInt8 := 40
def RPAREN : UInt8 := 41
def SEMI : UInt8 := 59
def AMP : UInt8 := 38
def LT : UInt8 := 60
def GT : UInt8 := 62
def APPEND : UInt8 := 43
def WORD : UInt8 := 97

def O_RDONLY : ℕ := 0x000
def O_WRONLY : ℕ := 0x001
def O_CREATE : ℕ := 0x200
def O_TRUNC : ℕ := 0x400

inductive Panic where
  | syntaxError | missingFile | parseblock | missingParen | tooManyArgs
  deriving DecidableEq, Repr

inductive Fault where
  | panic (p : Panic)
  | rounds
  deriving DecidableEq, Repr

/-- A counted string: the pointers to its first byte and past its last one. -/
abbrev Span := ℕ × ℕ

structure Redir where
  file : Span
  mode : ℕ
  fd : ℕ
  deriving DecidableEq, Repr

/-- `struct cmd`. The pointers `argv[i]` and `eargv[i]` make one list, without the final `0`. -/
inductive Cmd where
  | exec (argv : List Span)
  | redir (cmd : Cmd) (r : Redir)
  | pipe (left right : Cmd)
  | list (left right : Cmd)
  | back (cmd : Cmd)
  deriving DecidableEq, Repr

/-- The parser moves one cursor, `*ps`. -/
abbrev P := EStateM Fault ℕ

section
variable (str : List UInt8)

def charAt (s : ℕ) : UInt8 := str.getD s 0

/-- `while(s < es && p(*s)) s++`. -/
def skip (p : UInt8 → Bool) (s : ℕ) : ℕ := s + ((str.drop s).takeWhile p).length

def isSpace (c : UInt8) : Bool := whitespace.contains c

def isWord (c : UInt8) : Bool := !whitespace.contains c && !symbols.contains c

/-- The token at `s` and the end of it. -/
def tokenAt (s : ℕ) : UInt8 × ℕ :=
  let c := charAt str s
  if c = 0 then (0, s)
  else if c = BAR ∨ c = LPAREN ∨ c = RPAREN ∨ c = SEMI ∨ c = AMP ∨ c = LT then (c, s + 1)
  else if c = GT then if charAt str (s + 1) = GT then (APPEND, s + 2) else (GT, s + 1)
  else (WORD, skip str isWord s)

def gettoken : P (UInt8 × Span) := do
  let q := skip str isSpace (← get)
  let (tok, eq) := tokenAt str q
  set (skip str isSpace eq)
  return (tok, q, eq)

def peek (toks : List UInt8) : P Bool := do
  let s := skip str isSpace (← get)
  set s
  return charAt str s ≠ 0 && toks.contains (charAt str s)

def panic {α : Type} (p : Panic) : P α := throw (.panic p)

/-- What `parseredirs` passes to `redircmd` for the token of an operator. -/
def redirOf (tok : UInt8) (file : Span) : Redir :=
  if tok = LT then ⟨file, O_RDONLY, 0⟩
  else if tok = GT then ⟨file, O_WRONLY ||| O_CREATE ||| O_TRUNC, 1⟩
  else ⟨file, O_WRONLY ||| O_CREATE, 1⟩

/-- `parseredirs`: the redirections it wraps around its command, innermost first. -/
def parseredirs : ℕ → P (List Redir)
  | 0 => throw .rounds
  | n + 1 => do
      if ← peek str [LT, GT] then
        let (tok, _) ← gettoken str
        let (tok', file) ← gettoken str
        if tok' ≠ WORD then panic .missingFile
        return redirOf tok file :: (← parseredirs n)
      else
        return []

def wrap (cmd : Cmd) (rs : List Redir) : Cmd := rs.foldl .redir cmd

/-- The loop of `parseexec`. The node of the command is filled while redirections are
wrapped around it, so both are collected and put together at the end. -/
def parseargs : ℕ → List Span → List Redir → P Cmd
  | 0, _, _ => throw .rounds
  | n + 1, argv, rs => do
      if ← peek str [BAR, RPAREN, AMP, SEMI] then
        return wrap (.exec argv) rs
      else
        let (tok, arg) ← gettoken str
        if tok = 0 then
          return wrap (.exec argv) rs
        else
          if tok ≠ WORD then panic .syntaxError
          if argv.length + 1 ≥ MAXARGS then panic .tooManyArgs
          let rs' ← parseredirs str n
          parseargs n (argv ++ [arg]) (rs ++ rs')

/-- `while(peek(ps, es, "&"))` of `parseline`. -/
def parsebacks : ℕ → Cmd → P Cmd
  | 0, _ => throw .rounds
  | n + 1, cmd => do
      if ← peek str [AMP] then
        let _ ← gettoken str
        parsebacks n (.back cmd)
      else
        return cmd

mutual

def parseline : ℕ → P Cmd
  | 0 => throw .rounds
  | n + 1 => do
      let cmd ← parsepipe n
      let cmd ← parsebacks str n cmd
      if ← peek str [SEMI] then
        let _ ← gettoken str
        return .list cmd (← parseline n)
      else
        return cmd

def parsepipe : ℕ → P Cmd
  | 0 => throw .rounds
  | n + 1 => do
      let cmd ← parseexec n
      if ← peek str [BAR] then
        let _ ← gettoken str
        return .pipe cmd (← parsepipe n)
      else
        return cmd

def parseblock : ℕ → P Cmd
  | 0 => throw .rounds
  | n + 1 => do
      if !(← peek str [LPAREN]) then panic .parseblock
      let _ ← gettoken str
      let cmd ← parseline n
      if !(← peek str [RPAREN]) then panic .missingParen
      let _ ← gettoken str
      return wrap cmd (← parseredirs str n)

def parseexec : ℕ → P Cmd
  | 0 => throw .rounds
  | n + 1 => do
      if ← peek str [LPAREN] then
        parseblock n
      else
        let rs ← parseredirs str n
        parseargs str n [] rs

end

end

/-- `nulterminate` on the bytes of the line and its NUL. -/
def nulterminate : Cmd → List UInt8 → List UInt8
  | .exec argv, buf => argv.foldl (fun buf a => buf.set a.2 0) buf
  | .redir cmd r, buf => (nulterminate cmd buf).set r.file.2 0
  | .pipe left right, buf => nulterminate right (nulterminate left buf)
  | .list left right, buf => nulterminate right (nulterminate left buf)
  | .back cmd, buf => nulterminate cmd buf

/-- Every round takes at least one byte, and no more than four functions are entered before
that; this many are enough. -/
def rounds (str : List UInt8) : ℕ := 4 * str.length + 5

/-- `parsecmd` before it calls `nulterminate`. -/
def parseall (str : List UInt8) : P Cmd := do
  let cmd ← parseline str (rounds str)
  let _ ← peek str []
  if (← get) ≠ str.length then panic .syntaxError
  return cmd

/-- `parsecmd`: the tree, and the bytes its pointers point into afterwards. -/
def parsecmd (str : List UInt8) : Except Fault (Cmd × List UInt8) :=
  match parseall str 0 with
  | .ok cmd _ => .ok (cmd, nulterminate cmd (str ++ [0]))
  | .error e _ => .error e

end Sh
end Xv6
