import Xv6.Proc.PipeRead

/-!
Console input of `console.c`. `consoleintr` edits the line that is being typed and commits it;
any number of `consoleread` calls take committed bytes. The interrupt handler runs as one step,
and a read runs one round of its loop at a time; both need the lock, which a read gives up while
it sleeps. The echo and `procdump` are left out.

The machine also keeps the history: the characters typed, each with the room there was in the
buffer, and the bytes taken out, each with the call that took it.
-/

namespace Xv6
namespace Console

open RingBuffer

def INPUT_BUF : ℕ := 128

def ctrl (x : Char) : UInt8 := x.toUInt8 - '@'.toUInt8

def NL : UInt8 := 10
def CR : UInt8 := 13
def DEL : UInt8 := 127

/-- The struct `cons`; the three indices are `uint`. -/
structure Cons where
  buf : ℕ → UInt8
  r : ℕ
  w : ℕ
  e : ℕ

namespace Cons
variable (s : Cons)

/-- `cons.buf[cons.r % INPUT_BUF]` -/
def front : UInt8 := s.buf (s.r % INPUT_BUF)

def advance : Cons := { s with r := (s.r + 1) % 2 ^ 32 }

/-- `cons.r--` -/
def putBack : Cons := { s with r := (s.r + 2 ^ 32 - 1) % 2 ^ 32 }

/-- `cons.e--` -/
def erase : Cons := { s with e := (s.e + 2 ^ 32 - 1) % 2 ^ 32 }

@[simp] theorem erase_buf : s.erase.buf = s.buf := by rw [erase]
@[simp] theorem erase_r : s.erase.r = s.r := by rw [erase]
@[simp] theorem erase_w : s.erase.w = s.w := by rw [erase]

/-- `cons.buf[cons.e++ % INPUT_BUF] = c` -/
def store (c : UInt8) : Cons :=
  { s with buf := Function.update s.buf (s.e % INPUT_BUF) c, e := (s.e + 1) % 2 ^ 32 }

/-- The loop for `C('U')`, for at most `k` rounds. -/
def killLine (s : Cons) : ℕ → Cons
  | 0 => s
  | k + 1 =>
      if s.e ≠ s.w ∧ s.buf (s.erase.e % INPUT_BUF) ≠ NL then killLine s.erase k else s

/-- The second component says whether `wakeup(&cons.r)` is called. The loop that kills a line has
come to `cons.w` after `cons.e - cons.w` rounds. -/
def consoleintr (c : UInt8) : Cons × Bool :=
  if c = ctrl 'P' then (s, false)
  else if c = ctrl 'U' then (s.killLine (count (2 ^ 32) s.w s.e), false)
  else if c = ctrl 'H' ∨ c = DEL then (if s.e ≠ s.w then s.erase else s, false)
  else if c ≠ 0 ∧ count (2 ^ 32) s.r s.e < INPUT_BUF then
    let c := if c = CR then NL else c
    let s := s.store c
    if c = NL ∨ c = ctrl 'D' ∨ s.e = (s.r + INPUT_BUF) % 2 ^ 32 then ({ s with w := s.e }, true)
    else (s, false)
  else (s, false)

def queue : List UInt8 := contents (2 ^ 32) INPUT_BUF s.buf s.r s.w

def line : List UInt8 := contents (2 ^ 32) INPUT_BUF s.buf s.w s.e

end Cons

structure Args where
  um : UserMem
  dst : Dst
  n : ℤ

structure Read where
  args : Args
  um : UserMem
  dst : Dst
  target : ℤ
  n : ℤ

namespace Read

/-- `target` is a `uint`. -/
def start (args : Args) : Read := ⟨args, args.um, args.dst, args.n % 2 ^ 32, args.n⟩

/-- `either_copyout` of one byte, then `dst++` and `--n`. -/
def put (rd : Read) (c : UInt8) : Option Read :=
  match rd.dst with
  | .user a =>
      match copyout rd.um a [c] with
      | (um, true) => some { rd with um := um, dst := .user ((a + 1) % 2 ^ 64), n := rd.n - 1 }
      | (_, false) => none
  | .kernel l => some { rd with dst := .kernel (l ++ [c]), n := rd.n - 1 }

/-- `target - n` is computed as a `uint` and returned as an `int`. -/
def ret (rd : Read) : ℤ := Int.bmod (rd.target - rd.n) (2 ^ 32)

end Read

inductive Pc where
  /-- Not called yet. -/
  | idle
  | acquire (rd : Read)
  | loop (rd : Read)
  | asleep (rd : Read)
  /-- About to release the lock and to return `v`. -/
  | leaving (rd : Read) (v : ℤ)
  | returned (rd : Read) (v : ℤ)

namespace Pc

def wake : Pc → Pc
  | asleep rd => acquire rd
  | pc => pc

def locked : Pc → Bool
  | loop _ | leaving _ _ => true
  | idle | acquire _ | asleep _ | returned _ _ => false

end Pc

structure Machine where
  cons : Cons
  /-- The call that holds the lock between two steps. -/
  lock : Option ℕ
  call : ℕ → Pc
  killed : ℕ → Bool
  typed : List (UInt8 × ℕ)
  consumed : List (ℕ × UInt8)

namespace Machine
variable (m : Machine)

def goto (i : ℕ) (pc : Pc) : Machine := { m with call := Function.update m.call i pc }

/-- `c = cons.buf[cons.r++ % INPUT_BUF]` -/
def take (i : ℕ) : Machine :=
  { m with cons := m.cons.advance, consumed := m.consumed ++ [(i, m.cons.front)] }

/-- What call `i` took out of the buffer. -/
def taken (i : ℕ) : List UInt8 := (m.consumed.filter fun x => x.1 = i).map Prod.snd

/-- A round of the loop of `consoleread`. -/
def round (i : ℕ) (rd : Read) : Machine :=
  if 0 < rd.n then
    if m.cons.r = m.cons.w then
      if m.killed i then m.goto i (.leaving rd (-1))
      else { m with lock := none }.goto i (.asleep rd)
    else if m.cons.front = ctrl 'D' then
      if rd.n % 2 ^ 32 < rd.target then
        -- saved for the next read
        { m with cons := m.cons.advance.putBack }.goto i (.leaving rd rd.ret)
      else (m.take i).goto i (.leaving rd rd.ret)
    else
      match rd.put m.cons.front with
      | none => (m.take i).goto i (.leaving rd rd.ret)
      | some rd' => (m.take i).goto i
          (if m.cons.front = NL then .leaving rd' rd'.ret else .loop rd')
  else m.goto i (.leaving rd rd.ret)

def go (i : ℕ) : Pc → Option Machine
  | .idle | .asleep _ | .returned _ _ => none
  | .acquire rd => if m.lock = none then some { m.goto i (.loop rd) with lock := some i } else none
  | .loop rd => some (m.round i rd)
  | .leaving rd v => some ({ m with lock := none }.goto i (.returned rd v))

end Machine

inductive Choice where
  /-- `uartintr` got a character. -/
  | typed (c : UInt8)
  | read (i : ℕ) (args : Args)
  | kill (i : ℕ)
  | go (i : ℕ)

def step (m : Machine) : Choice → Option Machine
  | .typed c =>
      if m.lock = none then
        let (cons, woken) := m.cons.consoleintr c
        some { m with
          cons := cons
          call := if woken then fun i => (m.call i).wake else m.call
          typed := m.typed ++ [(c, INPUT_BUF - count (2 ^ 32) m.cons.r m.cons.e)] }
      else none
  | .read i args =>
      match m.call i with
      | .idle => some (m.goto i (.acquire (.start args)))
      | _ => none
  | .kill i => some { m.goto i (m.call i).wake with killed := Function.update m.killed i true }
  | .go i => m.go i (m.call i)

structure Args.Ok (args : Args) : Prop where
  lower : -2 ^ 31 ≤ args.n
  upper : args.n < 2 ^ 31
  addr : ∀ a, args.dst = .user a → a < 2 ^ 64
  mapped : ∀ a, args.dst = .user a → ∀ j : ℕ, (j : ℤ) < args.n →
    args.um.byte ((a + j) % 2 ^ 64) ≠ none

def Choice.Ok : Choice → Prop
  | .read _ args => args.Ok
  | .typed _ | .kill _ | .go _ => True

def boot : Machine := ⟨⟨fun _ => 0, 0, 0, 0⟩, none, fun _ => .idle, fun _ => false, [], []⟩

def Reachable (m : Machine) : Prop :=
  Transition.Reachable (· = boot) (fun m (e : Choice) m' => e.Ok ∧ step m e = some m') m

/-! ### The typed text -/

/-- The committed part of the typed text, and the line that is being edited. -/
structure Text where
  committed : List UInt8
  line : List UInt8

/-- Typing a character while the buffer has `room`: erasing and killing are for the line, and a
line is committed at its end or when the buffer is full. -/
def Text.type (t : Text) (c : UInt8) (room : ℕ) : Text :=
  if c = 0 ∨ c = ctrl 'P' then t
  else if c = ctrl 'U' then { t with line := [] }
  else if c = ctrl 'H' ∨ c = DEL then { t with line := t.line.dropLast }
  else if room = 0 then t
  else
    let c := if c = CR then NL else c
    if c = NL ∨ c = ctrl 'D' ∨ room = 1 then ⟨t.committed ++ (t.line ++ [c]), []⟩
    else { t with line := t.line ++ [c] }

/-- The text after all edits. -/
def edited (typed : List (UInt8 × ℕ)) : Text :=
  typed.foldl (fun t x => t.type x.1 x.2) ⟨[], []⟩

end Console
end Xv6
