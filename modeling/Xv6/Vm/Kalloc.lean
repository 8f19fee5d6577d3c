import Xv6.Vm.State

/-!
The physical page allocator, `kalloc.c`. The free list runs through the first word of
each free page.
-/

namespace Xv6
namespace Vm

def kfree (k : Layout) (pa : ℕ) : M Unit := do
  if pa % PGSIZE ≠ 0 ∨ pa < k.kend ∨ pa ≥ PHYSTOP then panic .kfree
  memset pa 1
  let next := (← get).freelist
  write64 pa next
  modify fun s => { s with freelist := pa }

def kalloc : M ℕ := do
  let s ← get
  modify fun s => { s with deny := s.deny.tail }
  if s.deny.head? = some true then
    return 0
  else
    let r := s.freelist
    if r ≠ 0 then
      let next ← read64 r
      modify fun s => { s with freelist := next }
      memset r 5
    return r

def freerangeFrom (k : Layout) : ℕ → ℕ → M Unit
  | 0, _ => return
  | n + 1, p => do
      kfree k p
      freerangeFrom k n (p + PGSIZE)

/-- The loop runs while a whole page is left below `paEnd`. -/
def freerange (k : Layout) (paStart paEnd : ℕ) : M Unit :=
  let p := PGROUNDUP paStart
  freerangeFrom k ((paEnd - p) / PGSIZE) p

def kinit (k : Layout) : M Unit := freerange k k.kend PHYSTOP

end Vm
end Xv6
