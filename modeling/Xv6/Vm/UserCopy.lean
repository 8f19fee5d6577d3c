import Xv6.Vm.PageTable

/-!
Copying between the kernel and user memory: `copyout`, `copyin` and `copyinstr` of
`vm.c`, and the functions of `syscall.c` that fetch arguments. Each round of a loop
copies at least one byte, so the length bounds the number of rounds.
-/

namespace Xv6
namespace Vm

/-- Whether `copyout` returned `0`. -/
def copyoutFrom (pagetable : ℕ) : ℕ → ℕ → List UInt8 → M Bool
  | 0, _, src => return src = []
  | fuel + 1, dstva, src => do
      if src = [] then
        return true
      else
        let va0 := PGROUNDDOWN dstva
        let pa0 ← walkaddr pagetable va0
        if pa0 = 0 then
          return false
        else
          let n := min (PGSIZE - (dstva - va0)) src.length
          writeBytes (pa0 + (dstva - va0)) (src.take n)
          copyoutFrom pagetable fuel ((va0 + PGSIZE) % 2 ^ 64) (src.drop n)

def copyout (pagetable dstva : ℕ) (src : List UInt8) : M Bool :=
  copyoutFrom pagetable src.length dstva src

/-- The bytes `copyin` got, and whether it returned `0`. -/
def copyinFrom (pagetable : ℕ) : ℕ → ℕ → ℕ → List UInt8 → M (List UInt8 × Bool)
  | 0, _, len, dst => return (dst, len = 0)
  | fuel + 1, srcva, len, dst => do
      if len = 0 then
        return (dst, true)
      else
        let va0 := PGROUNDDOWN srcva
        let pa0 ← walkaddr pagetable va0
        if pa0 = 0 then
          return (dst, false)
        else
          let n := min (PGSIZE - (srcva - va0)) len
          let l ← readBytes (pa0 + (srcva - va0)) n
          copyinFrom pagetable fuel ((va0 + PGSIZE) % 2 ^ 64) (len - n) (dst ++ l)

def copyin (pagetable srcva len : ℕ) : M (List UInt8 × Bool) :=
  copyinFrom pagetable len srcva len []

/-- The bytes of a string up to and with its terminator, and whether there is one. -/
def takeString : List UInt8 → List UInt8 × Bool
  | [] => ([], false)
  | c :: l => if c = 0 then ([0], true) else
      let (l, gotNull) := takeString l
      (c :: l, gotNull)

/-- The bytes `copyinstr` stored, and whether it returned `0`. -/
def copyinstrFrom (pagetable : ℕ) : ℕ → ℕ → ℕ → List UInt8 → M (List UInt8 × Bool)
  | 0, _, _, dst => return (dst, false)
  | fuel + 1, srcva, max, dst => do
      if max = 0 then
        return (dst, false)
      else
        let va0 := PGROUNDDOWN srcva
        let pa0 ← walkaddr pagetable va0
        if pa0 = 0 then
          return (dst, false)
        else
          let n := min (PGSIZE - (srcva - va0)) max
          let (l, gotNull) := takeString (← readBytes (pa0 + (srcva - va0)) n)
          if gotNull then return (dst ++ l, true)
          else copyinstrFrom pagetable fuel ((va0 + PGSIZE) % 2 ^ 64) (max - n) (dst ++ l)

def copyinstr (pagetable srcva max : ℕ) : M (List UInt8 × Bool) :=
  copyinstrFrom pagetable max srcva max []

end Vm
end Xv6
