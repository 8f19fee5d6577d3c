import Xv6.Lib.Bytes
import Xv6.Proc.Basic
import Xv6.Proc.File
import Xv6.Vm.Riscv

/-!
The state the memory half of the kernel works on: physical memory by pages, the free
list that runs through it, the process table and the file table with the pipes.
A function of `kalloc.c`, `vm.c`, `proc.c`, `exec.c` or `pipe.c` returns or panics.
-/

namespace Xv6
namespace Vm

def MAXARG : ℕ := 32

inductive Panic where
  | kfree | walk | kvmmap | mappagesSize | mappagesRemap
  | uvmunmapNotAligned | uvmunmapWalk | uvmunmapNotMapped | uvmunmapNotLeaf
  | freewalkLeaf | uvmcopyPte | uvmcopyPage | uvmclear
  | loadseg | kalloc | filedup
  /-- A kernel access through a null pointer. -/
  | kerneltrap
  /-- `freewalk` on more levels than a page table has. -/
  | stackOverflow
  deriving DecidableEq, Repr

/-- The part of `struct proc` that memory, files and the family of a process need. Null
pointers are `0`; `parent` is a slot of the table and `cwd` an entry of the inode table. -/
structure Proc where
  state : ProcState
  xstate : ℤ
  pid : ℤ
  parent : Option ℕ
  sz : ℕ
  pagetable : ℕ
  trapframe : ℕ
  ofile : TMap (Option ℕ)
  cwd : Option ℕ
  name : List UInt8
  deriving DecidableEq, Repr

instance : Inhabited Proc := ⟨⟨.unused, 0, 0, none, 0, 0, 0, .empty, none, []⟩⟩

/-- The calls that `exec` makes into the file system. -/
inductive FsCall where
  | beginOp | namei | ilock | iunlockput | endOp
  deriving DecidableEq, Repr

/-- Where the linker put the end of the kernel's code, its trampoline page and its end. -/
structure Layout where
  etext : ℕ
  trampoline : ℕ
  kend : ℕ
  deriving DecidableEq, Repr

structure State where
  /-- Physical memory, by page number. -/
  mem : TMap Bytes
  freelist : ℕ
  kernelPagetable : ℕ
  proc : TMap Proc
  nextpid : ℤ
  ftable : TMap File
  /-- Which of the coming calls of `kalloc` find no memory, whatever the free list has. -/
  deny : List Bool
  /-- The calls into the file system so far, latest first. -/
  fs : List FsCall
  deriving DecidableEq, Repr

abbrev M := EStateM Panic State

def panic {α : Type} (p : Panic) : M α := throw p

def record (c : FsCall) : M Unit := modify fun s => { s with fs := c :: s.fs }

/-! ### Physical memory -/

namespace State
variable (s : State)

def bytes (a n : ℕ) : List UInt8 := (s.mem.get (a / PGSIZE)).getBytes (a % PGSIZE) n

def load (a n : ℕ) : ℕ := (s.mem.get (a / PGSIZE)).getLE (a % PGSIZE) n

def setBytes (a : ℕ) (l : List UInt8) : State :=
  { s with mem := s.mem.set (a / PGSIZE) ((s.mem.get (a / PGSIZE)).putBytes (a % PGSIZE) l) }

def store (a n v : ℕ) : State := s.setBytes a (Bytes.le n v)

end State

def readBytes (a n : ℕ) : M (List UInt8) := return (← get).bytes a n

def writeBytes (a : ℕ) (l : List UInt8) : M Unit := modify fun s => s.setBytes a l

def read64 (a : ℕ) : M ℕ := return (← get).load a 8

def write64 (a v : ℕ) : M Unit := modify fun s => s.store a 8 v

/-- `memset` of a whole page. -/
def memset (pa : ℕ) (c : UInt8) : M Unit := modify fun s => { s with
  mem := s.mem.set (pa / PGSIZE)
    ((s.mem.get (pa / PGSIZE)).fill (pa % PGSIZE) (pa % PGSIZE + PGSIZE) c) }

theorem memset_eq (pa : ℕ) (c : UInt8) :
    memset pa c = writeBytes pa (List.replicate PGSIZE c) := by
  simp only [memset, writeBytes, State.setBytes, Bytes.putBytes_replicate]

def getProc (p : ℕ) : M Proc := return (← get).proc.get p

def modifyProc (p : ℕ) (f : Proc → Proc) : M Unit :=
  modify fun s => { s with proc := s.proc.set p (f (s.proc.get p)) }

end Vm
end Xv6
