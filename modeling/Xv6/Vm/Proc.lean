import Xv6.Vm.UserCopy

/-!
The memory of a process in `proc.c`: its page table and trapframe, `allocproc`, `growproc` and
`fork`. Each call is one step here, and a process is named by its slot.
-/

namespace Xv6
namespace Vm

/-! ### Page table and trapframe -/

/-- Offsets in a `struct trapframe`, and its size. -/
def epcOff : ℕ := 24
def spOff : ℕ := 48
def a0Off : ℕ := 112
def a1Off : ℕ := 120
def trapframeSize : ℕ := 288

def procPagetable (k : Layout) (p : ℕ) : M ℕ := do
  let pagetable ← uvmcreate
  if pagetable = 0 then
    return 0
  else if !(← mappages pagetable TRAMPOLINE PGSIZE k.trampoline (PTE_R ||| PTE_X)) then
    uvmfree k pagetable 0
    return 0
  else if !(← mappages pagetable TRAPFRAME PGSIZE (← getProc p).trapframe (PTE_R ||| PTE_W)) then
    uvmunmap k pagetable TRAMPOLINE 1 false
    uvmfree k pagetable 0
    return 0
  else
    return pagetable

def procFreepagetable (k : Layout) (pagetable sz : ℕ) : M Unit := do
  uvmunmap k pagetable TRAMPOLINE 1 false
  uvmunmap k pagetable TRAPFRAME 1 false
  uvmfree k pagetable sz

def freeproc (k : Layout) (p : ℕ) : M Unit := do
  let x ← getProc p
  if x.trapframe ≠ 0 then kfree k x.trapframe
  modifyProc p fun x => { x with trapframe := 0 }
  if x.pagetable ≠ 0 then procFreepagetable k x.pagetable x.sz
  modifyProc p fun x => { x with
    pagetable := 0, sz := 0, pid := 0, parent := none, name := [], xstate := 0, state := .unused }

def allocpid : M ℤ := do
  let pid := (← get).nextpid
  modify fun s => { s with nextpid := Int.bmod (pid + 1) (2 ^ 32) }
  return pid

def allocproc (k : Layout) : M (Option ℕ) := do
  let s ← get
  match (List.range NPROC).find? fun p => (s.proc.get p).state = .unused with
  | none => return none
  | some p =>
      let pid ← allocpid
      modifyProc p fun x => { x with pid := pid, state := .used }
      let trapframe ← kalloc
      modifyProc p fun x => { x with trapframe := trapframe }
      if trapframe = 0 then
        freeproc k p
        return none
      else
        let pagetable ← procPagetable k p
        modifyProc p fun x => { x with pagetable := pagetable }
        if pagetable = 0 then
          freeproc k p
          return none
        else
          return some p

/-! ### The calls -/

/-- Whether `growproc` returned `0`. The size is a `uint` here. -/
def growproc (k : Layout) (p : ℕ) (n : ℤ) : M Bool := do
  let x ← getProc p
  let sz := x.sz % 2 ^ 32
  let newsz := ((sz + n) % 2 ^ 32).toNat
  if n > 0 then
    let sz ← uvmalloc k x.pagetable sz newsz
    if sz % 2 ^ 32 = 0 then
      return false
    else
      modifyProc p fun x => { x with sz := sz % 2 ^ 32 }
      return true
  else if n < 0 then
    let sz ← uvmdealloc k x.pagetable sz newsz
    modifyProc p fun x => { x with sz := sz % 2 ^ 32 }
    return true
  else
    modifyProc p fun x => { x with sz := sz }
    return true

def sysSbrk (k : Layout) (p : ℕ) (n : ℤ) : M ℤ := do
  let addr := Int.bmod (← getProc p).sz (2 ^ 32)
  if ← growproc k p n then return addr else return -1

def getFile (f : ℕ) : M File := return (← get).ftable.get f

def modifyFile (f : ℕ) (g : File → File) : M Unit :=
  modify fun s => { s with ftable := s.ftable.set f (g (s.ftable.get f)) }

def filedup (f : ℕ) : M Unit := do
  if (← getFile f).ref < 1 then panic .filedup
  modifyFile f fun x => { x with ref := x.ref + 1 }

def forkFiles (p np : ℕ) : ℕ → ℕ → M Unit
  | 0, _ => return
  | n + 1, i => do
      match (← getProc p).ofile.get i with
      | some f =>
          filedup f
          modifyProc np fun x => { x with ofile := x.ofile.set i (some f) }
      | none => pure ()
      forkFiles p np n (i + 1)

def fork (k : Layout) (p : ℕ) : M ℤ := do
  match ← allocproc k with
  | none => return -1
  | some np =>
      let x ← getProc p
      let y ← getProc np
      if !(← uvmcopy k x.pagetable y.pagetable x.sz) then
        freeproc k np
        return -1
      else
        modifyProc np fun y => { y with sz := x.sz }
        writeBytes y.trapframe (← readBytes x.trapframe trapframeSize)
        write64 (y.trapframe + a0Off) 0
        forkFiles p np NOFILE 0
        modifyProc np fun y =>
          { y with cwd := x.cwd, name := x.name, parent := some p, state := .runnable }
        return y.pid

end Vm
end Xv6
