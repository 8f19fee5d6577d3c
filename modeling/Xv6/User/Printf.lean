import Xv6.Lib.Numeral
import Mathlib.Tactic

/-!
`printf.c` of the user library. The result of a function is the bytes it writes to its file with
`putc`, in order. An `int` and a `uint` are `BitVec 32`, a `uint64` is `BitVec 64`. A byte that
does not fit into the buffer of `printint`, and an argument that is not what `va_arg` asks for,
make the result `none`.
-/

namespace Xv6
namespace Printf

/-- `"0123456789ABCDEF"`. -/
def digits : List UInt8 := [48, 49, 50, 51, 52, 53, 54, 55, 56, 57, 65, 66, 67, 68, 69, 70]

def digit (d : ℕ) : UInt8 := digits.getD d 0

def BUFSIZE : ℕ := 16

/-- `buf[i++] = c`. -/
def push (buf : List UInt8) (c : UInt8) : Option (List UInt8) :=
  if buf.length < BUFSIZE then some (buf ++ [c]) else none

/-- `do { buf[i++] = digits[x % base]; } while((x /= base) != 0)`. -/
def putDigits (base x : ℕ) (buf : List UInt8) : Option (List UInt8) :=
  if buf.length < BUFSIZE then
    let buf' := buf ++ [digit (x % base)]
    if x / base ≠ 0 then putDigits base (x / base) buf' else some buf'
  else none
termination_by BUFSIZE - buf.length
decreasing_by
  rw [List.length_append, List.length_singleton]
  omega

def MINUS : UInt8 := 45
def PERCENT : UInt8 := 37

def printint (xx : BitVec 32) (base : ℕ) (sgn : Bool) : Option (List UInt8) := do
  let neg := sgn && decide (xx.toInt < 0)
  let x := if neg then -xx else xx
  let buf ← putDigits base x.toNat []
  let buf ← if neg then push buf MINUS else some buf
  return buf.reverse

/-- The loop of `printptr`, with the rounds that are left. -/
def ptrDigits : ℕ → BitVec 64 → List UInt8
  | 0, _ => []
  | n + 1, x => digit (x >>> 60).toNat :: ptrDigits n (x <<< 4)

def printptr (x : BitVec 64) : List UInt8 := [48, 120] ++ ptrDigits 16 x

/-- The arguments of a call, by the type they were passed with. A `char *` is the bytes from
there on. -/
inductive Arg where
  | int (x : BitVec 32)
  | uint64 (x : BitVec 64)
  | string (s : Option (List UInt8))
  deriving DecidableEq, Repr

def null : List UInt8 := [40, 110, 117, 108, 108, 41]

/-- The branches for the character after a `%`: what is written, and the arguments left. -/
def conversion (c : UInt8) (ap : List Arg) : Option (List UInt8 × List Arg) :=
  if c = 100 then -- d
    match ap with
    | .int x :: ap => (printint x 10 true).map (·, ap)
    | _ => none
  else if c = 108 then -- l: the parameter `xx` of `printint` is an `int`
    match ap with
    | .uint64 x :: ap => (printint (x.setWidth 32) 10 false).map (·, ap)
    | _ => none
  else if c = 120 then -- x
    match ap with
    | .int x :: ap => (printint x 16 false).map (·, ap)
    | _ => none
  else if c = 112 then -- p
    match ap with
    | .uint64 x :: ap => some (printptr x, ap)
    | _ => none
  else if c = 115 then -- s
    match ap with
    | .string s :: ap => some ((s.getD null).takeWhile (· ≠ 0), ap)
    | _ => none
  else if c = 99 then -- c
    match ap with
    | .int x :: ap => some ([UInt8.ofNat x.toNat], ap)
    | _ => none
  else if c = PERCENT then some ([c], ap)
  else some ([PERCENT, c], ap)

/-- The loop of `vprintf`; the flag says that `state` is `'%'`. -/
def vprintfFrom : Bool → List UInt8 → List Arg → Option (List UInt8)
  | _, [], _ => some []
  | state, c :: fmt, ap =>
      if c = 0 then some []
      else if state then do
        let (out, ap) ← conversion c ap
        return out ++ (← vprintfFrom false fmt ap)
      else if c = PERCENT then vprintfFrom true fmt ap
      else do return c :: (← vprintfFrom false fmt ap)

def vprintf (fmt : List UInt8) (ap : List Arg) : Option (List UInt8) := vprintfFrom false fmt ap

end Printf
end Xv6
