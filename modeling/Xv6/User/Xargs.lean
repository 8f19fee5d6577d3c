import Mathlib.Tactic

/-!
The program `xargs.c`. The arrays on its stack hold anything at first. A process that forks
goes on when its child has exited, so the processes of one invocation take turns: a child runs
until it exits, with copies of the arrays and of the rest of the chunk, and it shares the input.
-/

namespace Xv6
namespace Xargs

def SPACE : UInt8 := 32
def NL : UInt8 := 10
def CR : UInt8 := 13

def BUFSIZE : ℕ := 512

/-- The entries of `cmdArgv`, and the ones that `sys_exec` reads at most. -/
def MAXARG : ℕ := 32

/-- A `char *`: null, one of `argv[1], argv[2], ...`, into `argvBuf`, or any other one. -/
inductive Ptr where
  | null
  | arg (i : ℕ)
  | buf (o : ℕ)
  | other (a : ℕ)
  deriving DecidableEq, Repr

/-- The variables of `main`. The pointer `argvbufp` is given by its offset in `argvBuf`. The
arrays have `MAXARG` entries and `BUFSIZE` bytes: `inBounds` stands before every store. -/
structure Vars where
  cmdArgv : ℕ → Ptr
  argvBuf : ℕ → UInt8
  argvBufSize : ℕ
  argvbufp : ℕ
  argvi : ℕ

/-- The variables before the loop, for `nargs = argc - 1`. -/
def start (nargs : ℕ) (cmdArgv : ℕ → Ptr) (argvBuf : ℕ → UInt8) : Vars :=
  ⟨fun i => if i < nargs then .arg i else cmdArgv i, argvBuf, 0, 0, nargs⟩

namespace Vars
variable (v : Vars)

/-- `argvBuf[argvBufSize] = 0; cmdArgv[argvi] = argvbufp`. -/
def endWord : Vars :=
  { v with
    argvBuf := Function.update v.argvBuf v.argvBufSize 0
    cmdArgv := Function.update v.cmdArgv v.argvi (.buf v.argvbufp) }

def onSpace : Vars :=
  { v.endWord with
    argvBufSize := v.argvBufSize + 1
    argvi := v.argvi + 1
    argvbufp := v.argvBufSize + 1 }

/-- What follows `wait`. -/
def nextLine (nargs : ℕ) : Vars := { v with argvBufSize := 0, argvi := nargs, argvbufp := 0 }

def onChar (c : UInt8) : Vars :=
  { v with
    argvBuf := Function.update v.argvBuf v.argvBufSize c
    argvBufSize := v.argvBufSize + 1 }

/-- The variables after one character, in a process that goes on. -/
def step (nargs : ℕ) (c : UInt8) : Vars :=
  if c = SPACE then v.onSpace
  else if c = NL ∨ c = CR then v.endWord.nextLine nargs
  else v.onChar c

/-- The stores that this character leads to are inside the arrays. -/
def inBounds (c : UInt8) : Bool :=
  v.argvBufSize < BUFSIZE ∧ (c = SPACE ∨ c = NL ∨ c = CR → v.argvi < MAXARG)

end Vars

/-! ### What `exec` gets -/

/-- The vector up to its first null pointer; `sys_exec` fails when it does not see one. -/
def vector (cmdArgv : ℕ → Ptr) : Option (List Ptr) :=
  let l := (List.range MAXARG).map cmdArgv
  if .null ∈ l then some (l.takeWhile (· ≠ .null)) else none

/-- The string at an offset of `argvBuf`, which ends before the end of the buffer. -/
def string (buf : ℕ → UInt8) (o : ℕ) : List UInt8 :=
  ((List.range (BUFSIZE - o)).map fun i => buf (o + i)).takeWhile (· ≠ 0)

/-- The strings of a vector. Nothing is known of those outside `argv` and `argvBuf`. -/
def Vars.deref (v : Vars) (args : List (List UInt8)) (other : ℕ → List UInt8) : Ptr → List UInt8
  | .null => []
  | .arg i => args.getD i []
  | .buf o => string v.argvBuf o
  | .other a => other a

/-- The arguments in a call `exec(argv[1], cmdArgv)`. -/
def Vars.execArgs (v : Vars) (args : List (List UInt8)) (other : ℕ → List UInt8) :
    Option (List (List UInt8)) :=
  (vector v.cmdArgv).map (List.map (v.deref args other))

/-! ### Processes -/

/-- A call of `exec`: the offset in the input of the character that led to it, and the
variables of the process. -/
structure Attempt where
  off : ℕ
  vars : Vars

/-- What the processes share: the chunks that `read` will return, the offset of the first of
them in the input, the number of calls of `fork` so far, and the calls of `exec`. -/
structure World where
  chunks : List (List UInt8)
  off : ℕ
  forks : ℕ
  log : List Attempt

/-- A process in the loop: its variables, the rest of its chunk and the offset of that. -/
structure Process where
  vars : Vars
  rest : List UInt8
  off : ℕ

def World.read (w : World) : List UInt8 × World :=
  match w.chunks with
  | [] => ([], w)
  | c :: cs => (c, { w with chunks := cs, off := w.off + c.length })

/-- After `fork`, and the call of `exec` in the child. -/
def World.called (w : World) (a : Attempt) : World :=
  { w with forks := w.forks + 1, log := w.log ++ [a] }

/-- Why nothing is said about the rest of a run: it takes more steps, or a store was outside an
array. -/
inductive Stop where
  | fuel
  | bounds
  deriving DecidableEq, Repr

/-- A process until it exits. Over all processes, call number `n` of `fork` succeeds if
`forks n`, and call number `n` of `exec` if `ok n`; when `exec` fails, the child goes on in the
loop, where `wait` has nothing to wait for. -/
def run (nargs : ℕ) (forks ok : ℕ → Bool) : ℕ → Process → World → Except Stop World
  | 0, _, _ => .error .fuel
  | n + 1, p, w =>
      match p.rest with
      | [] =>
          match w.read with
          | ([], w') => .ok w'
          | (c :: cs, w') => run nargs forks ok n ⟨p.vars, c :: cs, w.off⟩ w'
      | c :: rest =>
          let next : Process := ⟨p.vars.step nargs c, rest, p.off + 1⟩
          if p.vars.inBounds c = false then .error .bounds
          else if c = NL ∨ c = CR then
            if forks w.forks = false then .ok { w with forks := w.forks + 1 }
            else
              let w₁ := w.called ⟨p.off, p.vars.endWord⟩
              -- the child, then the parent
              (if ok w.log.length then .ok w₁ else run nargs forks ok n next w₁).bind
                (run nargs forks ok n next)
          else run nargs forks ok n next w

structure Delivers (input : List UInt8) (chunks : List (List UInt8)) : Prop where
  flatten : chunks.flatten = input
  size : ∀ c ∈ chunks, c ≠ [] ∧ c.length ≤ BUFSIZE

/-- The calls of `exec` over all processes of an invocation with the stack `v`, in which no
store is outside an array. -/
def Calls (nargs : ℕ) (forks ok : ℕ → Bool) (chunks : List (List UInt8)) (v : Vars)
    (log : List Attempt) : Prop :=
  ∃ n w, run nargs forks ok n ⟨v, [], 0⟩ ⟨chunks, 0, 0, []⟩ = .ok w ∧ w.log = log

/-! ### Lines -/

/-- The input of these lines, each with its newline. -/
def ofLines (lines : List (List UInt8)) : List UInt8 := (lines.map (· ++ [NL])).flatten

/-- The parts of a line between spaces: its words and empty ones. -/
def pieces (l : List UInt8) : List (List UInt8) := l.splitOn SPACE

def words (l : List UInt8) : List (List UInt8) := (pieces l).filter (· ≠ [])

/-- The line is within the limits of the program: it fits in `argvBuf`, and `cmdArgv` has an
entry after its last word. -/
def Fits (nargs : ℕ) (l : List UInt8) : Prop :=
  l.length < BUFSIZE ∧ nargs + (pieces l).length < MAXARG

end Xargs
end Xv6
