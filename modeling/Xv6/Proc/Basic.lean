import Mathlib.Tactic

/-!
The process table of `proc.h` and `param.h`, as far as several models share it.
-/

namespace Xv6

def NPROC : ℕ := 64

inductive ProcState where
  | unused | used | sleeping | runnable | running | zombie
  deriving DecidableEq, Repr

end Xv6
