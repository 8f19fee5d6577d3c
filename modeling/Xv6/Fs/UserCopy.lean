import Xv6.Fs.State
import Xv6.Vm.Riscv

/-!
`copyin` and `copyout` of `vm.c` over the pages `walkaddr` finds, and the two
`either_copy` functions of `proc.c`.
-/

namespace Xv6

/-- The page at `va` when it is below `MAXVA`, valid and accessible to the user. -/
def UserMem.walkaddr (um : UserMem) (va : ℕ) : Option Bytes :=
  if va ≥ MAXVA then none else um.get? (va / PGSIZE)

/-- `copyin` into `dst` from offset `o` on: what the destination holds afterwards, and
whether the copy was complete. Each round of the loop copies at least one byte, so
`len` rounds are enough. -/
def copyinLoop (um : UserMem) : ℕ → Bytes → ℕ → ℕ → ℕ → Bytes × Bool
  | 0, dst, _, _, len => (dst, len = 0)
  | fuel + 1, dst, o, srcva, len =>
      if len = 0 then (dst, true)
      else
        let va0 := PGROUNDDOWN srcva
        match um.walkaddr va0 with
        | none => (dst, false)
        | some page =>
            let n := min (PGSIZE - (srcva - va0)) len
            copyinLoop um fuel (dst.putBytes o (page.getBytes (srcva - va0) n)) (o + n)
              ((va0 + PGSIZE) % 2 ^ 64) (len - n)

def copyin (um : UserMem) (dst : Bytes) (o srcva len : ℕ) : Bytes × Bool :=
  copyinLoop um len dst o srcva len

/-- `copyout`: user memory afterwards, and whether the copy was complete. -/
def copyoutLoop : ℕ → UserMem → ℕ → List UInt8 → UserMem × Bool
  | 0, um, _, src => (um, src = [])
  | fuel + 1, um, dstva, src =>
      if src = [] then (um, true)
      else
        let va0 := PGROUNDDOWN dstva
        match um.walkaddr va0 with
        | none => (um, false)
        | some page =>
            let n := min (PGSIZE - (dstva - va0)) src.length
            copyoutLoop fuel (um.set (va0 / PGSIZE) (page.putBytes (dstva - va0) (src.take n)))
              ((va0 + PGSIZE) % 2 ^ 64) (src.drop n)

def copyout (um : UserMem) (dstva : ℕ) (src : List UInt8) : UserMem × Bool :=
  copyoutLoop src.length um dstva src

/-- The source of a `writei`: a user address, or bytes in the kernel. -/
inductive Src where
  | user (addr : ℕ)
  | kernel (bytes : List UInt8)

def Src.advance : Src → ℕ → Src
  | user a, m => user ((a + m) % 2 ^ 64)
  | kernel l, m => kernel (l.drop m)

def eitherCopyin (um : UserMem) (dst : Bytes) (o : ℕ) (src : Src) (len : ℕ) : Bytes × Bool :=
  match src with
  | .user a => copyin um dst o a len
  | .kernel l => (dst.putBytes o (l.take len), true)

/-- The destination of a `readi`: a user address, or the bytes the kernel got so far. -/
inductive Dst where
  | user (addr : ℕ)
  | kernel (bytes : List UInt8)

/-- Deliver `bytes` to the destination and step it past them. -/
def eitherCopyout (dst : Dst) (bytes : List UInt8) : K (Option Dst) := do
  match dst with
  | .user a =>
      let (um, ok) := copyout (← get).umem a bytes
      modify fun s => { s with umem := um }
      return if ok then some (.user ((a + bytes.length) % 2 ^ 64)) else none
  | .kernel l => return some (.kernel (l ++ bytes))

end Xv6
