import Xv6.Vm.Kalloc

/-!
Page tables, `vm.c`. A page table is the address of its first page, and `walk` returns
the address of an entry, or `0`. The loops over addresses recurse on the number of
rounds that are left.
-/

namespace Xv6
namespace Vm

/-- The loop of `walk` from a level down. -/
def walkFrom (va : ℕ) (alloc : Bool) : ℕ → ℕ → M ℕ
  | 0, pagetable => return pagetable + 8 * PX 0 va
  | level + 1, pagetable => do
      let pte := pagetable + 8 * PX (level + 1) va
      let e ← read64 pte
      if e &&& PTE_V ≠ 0 then
        walkFrom va alloc level (PTE2PA e)
      else if alloc then
        let pagetable ← kalloc
        if pagetable = 0 then
          return 0
        else
          memset pagetable 0
          write64 pte (PA2PTE pagetable ||| PTE_V)
          walkFrom va alloc level pagetable
      else
        return 0

def walk (pagetable va : ℕ) (alloc : Bool) : M ℕ := do
  if va ≥ MAXVA then panic .walk
  walkFrom va alloc 2 pagetable

def walkaddr (pagetable va : ℕ) : M ℕ := do
  if va ≥ MAXVA then
    return 0
  else
    let pte ← walk pagetable va false
    if pte = 0 then
      return 0
    else
      let e ← read64 pte
      if e &&& PTE_V = 0 then return 0
      else if e &&& PTE_U = 0 then return 0
      else return PTE2PA e

/-- One round of `mappages`; whether `walk` found the entry. -/
def mapPage (pagetable perm a pa : ℕ) : M Bool := do
  let pte ← walk pagetable a true
  if pte = 0 then
    return false
  else
    if (← read64 pte) &&& PTE_V ≠ 0 then panic .mappagesRemap
    write64 pte (PA2PTE pa ||| perm ||| PTE_V)
    return true

/-- The loop of `mappages` at the page `a`, with `n` more pages to come. -/
def mappagesFrom (pagetable perm : ℕ) : ℕ → ℕ → ℕ → M Bool
  | 0, a, pa => mapPage pagetable perm a pa
  | n + 1, a, pa => do
      if ← mapPage pagetable perm a pa then
        mappagesFrom pagetable perm n ((a + PGSIZE) % 2 ^ 64) ((pa + PGSIZE) % 2 ^ 64)
      else
        return false

/-- Whether `mappages` returned `0`. The loop ends when `a` is the last page, with
addresses modulo `2 ^ 64`. -/
def mappages (pagetable va size pa perm : ℕ) : M Bool := do
  if size = 0 then panic .mappagesSize
  let a := PGROUNDDOWN va
  let last := PGROUNDDOWN ((va + size - 1) % 2 ^ 64)
  mappagesFrom pagetable perm ((last + 2 ^ 64 - a) % 2 ^ 64 / PGSIZE) a pa

def uvmunmapFrom (k : Layout) (pagetable : ℕ) (doFree : Bool) : ℕ → ℕ → M Unit
  | 0, _ => return
  | n + 1, a => do
      let pte ← walk pagetable a false
      if pte = 0 then panic .uvmunmapWalk
      let e ← read64 pte
      if e &&& PTE_V = 0 then panic .uvmunmapNotMapped
      if PTE_FLAGS e = PTE_V then panic .uvmunmapNotLeaf
      if doFree then kfree k (PTE2PA e)
      write64 pte 0
      uvmunmapFrom k pagetable doFree n (a + PGSIZE)

def uvmunmap (k : Layout) (pagetable va npages : ℕ) (doFree : Bool) : M Unit := do
  if va % PGSIZE ≠ 0 then panic .uvmunmapNotAligned
  uvmunmapFrom k pagetable doFree (pages ((va + npages * PGSIZE) % 2 ^ 64 - va)) va

def uvmcreate : M ℕ := do
  let pagetable ← kalloc
  if pagetable = 0 then
    return 0
  else
    memset pagetable 0
    return pagetable

def uvmdealloc (k : Layout) (pagetable oldsz newsz : ℕ) : M ℕ := do
  if newsz ≥ oldsz then
    return oldsz
  else
    if PGROUNDUP newsz < PGROUNDUP oldsz then
      uvmunmap k pagetable (PGROUNDUP newsz) ((PGROUNDUP oldsz - PGROUNDUP newsz) / PGSIZE) true
    return newsz

/-- The loop of `uvmalloc` at `a`; whether it got to the end. -/
def uvmallocFrom (k : Layout) (pagetable oldsz : ℕ) : ℕ → ℕ → M Bool
  | 0, _ => return true
  | n + 1, a => do
      let mem ← kalloc
      if mem = 0 then
        let _ ← uvmdealloc k pagetable a oldsz
        return false
      else
        memset mem 0
        if ← mappages pagetable a PGSIZE mem (PTE_W ||| PTE_X ||| PTE_R ||| PTE_U) then
          uvmallocFrom k pagetable oldsz n (a + PGSIZE)
        else
          kfree k mem
          let _ ← uvmdealloc k pagetable a oldsz
          return false

def uvmalloc (k : Layout) (pagetable oldsz newsz : ℕ) : M ℕ := do
  if newsz < oldsz then
    return oldsz
  else
    let oldsz := PGROUNDUP oldsz
    if ← uvmallocFrom k pagetable oldsz (pages (newsz - oldsz)) oldsz then return newsz
    else return 0

/-- The loop of `freewalk` over the entries from `i` on. -/
def freewalkFrom (freewalk : ℕ → M Unit) (pagetable : ℕ) : ℕ → ℕ → M Unit
  | 0, _ => return
  | n + 1, i => do
      let pte ← read64 (pagetable + 8 * i)
      if pte &&& PTE_V ≠ 0 ∧ pte &&& (PTE_R ||| PTE_W ||| PTE_X) = 0 then
        freewalk (PTE2PA pte)
        write64 (pagetable + 8 * i) 0
      else if pte &&& PTE_V ≠ 0 then
        panic .freewalkLeaf
      freewalkFrom freewalk pagetable n (i + 1)

/-- The first argument bounds the depth of the recursion. -/
def freewalk (k : Layout) : ℕ → ℕ → M Unit
  | 0, _ => panic .stackOverflow
  | depth + 1, pagetable => do
      freewalkFrom (freewalk k depth) pagetable 512 0
      kfree k pagetable

def uvmfree (k : Layout) (pagetable sz : ℕ) : M Unit := do
  if sz > 0 then uvmunmap k pagetable 0 (PGROUNDUP sz / PGSIZE) true
  freewalk k 3 pagetable

/-- The loop of `uvmcopy` at `i`; the result is where it stopped and whether that was
an error. -/
def uvmcopyFrom (k : Layout) (old new : ℕ) : ℕ → ℕ → M (ℕ × Bool)
  | 0, i => return (i, true)
  | n + 1, i => do
      let pte ← walk old i false
      if pte = 0 then panic .uvmcopyPte
      let e ← read64 pte
      if e &&& PTE_V = 0 then panic .uvmcopyPage
      let pa := PTE2PA e
      let flags := PTE_FLAGS e
      let mem ← kalloc
      if mem = 0 then
        return (i, false)
      else
        writeBytes mem (← readBytes pa PGSIZE)
        if ← mappages new i PGSIZE mem flags then
          uvmcopyFrom k old new n (i + PGSIZE)
        else
          kfree k mem
          return (i, false)

/-- Whether `uvmcopy` returned `0`. -/
def uvmcopy (k : Layout) (old new sz : ℕ) : M Bool := do
  let (i, ok) ← uvmcopyFrom k old new (pages sz) 0
  if ok then
    return true
  else
    uvmunmap k new 0 (i / PGSIZE) true
    return false

def uvmclear (pagetable va : ℕ) : M Unit := do
  let pte ← walk pagetable va false
  if pte = 0 then panic .uvmclear
  let e ← read64 pte
  write64 pte (e &&& (2 ^ 64 - 1 - PTE_U))

/-! ### The kernel's page table -/

def kvmmap (kpgtbl va pa sz perm : ℕ) : M Unit := do
  if !(← mappages kpgtbl va sz pa perm) then panic .kvmmap

def procMapstacksFrom (kpgtbl : ℕ) : ℕ → ℕ → M Unit
  | 0, _ => return
  | n + 1, p => do
      let pa ← kalloc
      if pa = 0 then panic .kalloc
      kvmmap kpgtbl (KSTACK p) pa PGSIZE (PTE_R ||| PTE_W)
      procMapstacksFrom kpgtbl n (p + 1)

def procMapstacks (kpgtbl : ℕ) : M Unit := procMapstacksFrom kpgtbl NPROC 0

def kvmmake (k : Layout) : M ℕ := do
  let kpgtbl ← kalloc
  if kpgtbl = 0 then panic .kerneltrap
  memset kpgtbl 0
  kvmmap kpgtbl UART0 UART0 PGSIZE (PTE_R ||| PTE_W)
  kvmmap kpgtbl VIRTIO0 VIRTIO0 PGSIZE (PTE_R ||| PTE_W)
  kvmmap kpgtbl PLIC PLIC 0x400000 (PTE_R ||| PTE_W)
  kvmmap kpgtbl KERNBASE KERNBASE (k.etext - KERNBASE) (PTE_R ||| PTE_X)
  kvmmap kpgtbl k.etext k.etext (PHYSTOP - k.etext) (PTE_R ||| PTE_W)
  kvmmap kpgtbl TRAMPOLINE k.trampoline PGSIZE (PTE_R ||| PTE_X)
  procMapstacks kpgtbl
  return kpgtbl

end Vm
end Xv6
