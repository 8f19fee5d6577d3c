import Xv6.Fs.Sysfile
import Xv6.Vm.Exec

/-!
The file-system half of `sys_pipe` and `exec`. What the memory half returns, page
allocation and the copying of arguments, is given from outside.
-/

namespace Xv6

/-- The two ends of a new pipe; `pi` is the page `kalloc` returns. -/
def pipealloc (pi : Option ℕ) : K (Option (ℕ × ℕ)) := do
  match ← filealloc with
  | none => return none
  | some f0 =>
      match ← filealloc with
      | none =>
          fileclose f0
          return none
      | some f1 =>
          match pi with
          | none =>
              fileclose f0
              fileclose f1
              return none
          | some pi =>
              modifyFile f0 fun x =>
                { x with type := .pipe, readable := true, writable := false, pipe := pi }
              modifyFile f1 fun x =>
                { x with type := .pipe, readable := false, writable := true, pipe := pi }
              return some (f0, f1)

/-- `copyout` of the `int` `n` to user address `a`. -/
def copyoutInt (a n : ℕ) : K Bool := do
  let (um, ok) := copyout (← get).umem a (Bytes.le 4 n)
  modify fun s => { s with umem := um }
  return ok

def clearFd (fd : ℕ) : K Unit := modifyProc fun p => { p with ofile := p.ofile.set fd none }

/-- The failure exits of `sys_pipe` once there are two files. -/
def sysPipeBad (rf wf : ℕ) : K ℤ := do
  fileclose rf
  fileclose wf
  return -1

def sysPipe (fdarray : ℕ) (pi : Option ℕ) : K ℤ := do
  match ← pipealloc pi with
  | none => return -1
  | some (rf, wf) =>
      match ← fdalloc rf with
      | none => sysPipeBad rf wf
      | some fd0 =>
          match ← fdalloc wf with
          | none =>
              clearFd fd0
              sysPipeBad rf wf
          | some fd1 =>
              -- the second copy is not tried when the first fails
              let ok ← copyoutInt fdarray fd0
              let ok ← if ok then copyoutInt ((fdarray + 4) % 2 ^ 64) fd1 else pure false
              if ok then
                return 0
              else
                clearFd fd0
                clearFd fd1
                sysPipeBad rf wf

/-- What the memory half of `exec` reports: whether `proc_pagetable` succeeded, whether
`uvmalloc` did for program header `i`, and the value returned once the file is closed. -/
structure ExecMem where
  pagetable : Bool
  uvmalloc : ℕ → Bool
  ret : ℤ

/-- `readi(ip, 0, &x, off, sizeof(x)) != sizeof(x)`. -/
def readKernel (ip off n : ℕ) : K (Option (List UInt8)) := do
  let (r, dst) ← readi ip (.kernel []) off n
  match dst with
  | .kernel bytes => return if r = some n then some bytes else none
  | .user _ => return none

/-- The loop of `loadseg` at byte `i` of the segment for `n` rounds. -/
def loadsegFrom (ip offset sz : ℕ) : ℕ → ℕ → K Bool
  | 0, _ => return true
  | n + 1, i => do
      match ← readKernel ip ((offset + i) % 2 ^ 32) (min (sz - i) PGSIZE) with
      | none => return false
      | some _ => loadsegFrom ip offset sz n (i + PGSIZE)

def loadseg (ip offset sz : ℕ) : K Bool :=
  loadsegFrom ip offset sz ((sz + PGSIZE - 1) / PGSIZE) 0

/-- The loop over the program headers, from header `i` at offset `off` on. -/
def loadFrom (ip : ℕ) (mem : ExecMem) : ℕ → ℕ → ℕ → K Bool
  | 0, _, _ => return true
  | n + 1, i, off => do
      match ← readKernel ip off Vm.proghdrSize with
      | none => return false
      | some l =>
          let ph := Vm.proghdr l
          let next := (off + Vm.proghdrSize) % 2 ^ 32
          if ph.type ≠ Vm.ELF_PROG_LOAD then
            loadFrom ip mem n (i + 1) next
          else if ph.memsz < ph.filesz then
            return false
          else if (ph.vaddr + ph.memsz) % 2 ^ 64 < ph.vaddr then
            return false
          else if !mem.uvmalloc i then
            return false
          else if ph.vaddr % PGSIZE ≠ 0 then
            return false
          else if ← loadseg ip (ph.off % 2 ^ 32) (ph.filesz % 2 ^ 32) then
            loadFrom ip mem n (i + 1) next
          else
            return false

/-- The label `bad` of `exec` while the file is open. -/
def execBad (ip : ℕ) : K ℤ := do
  iunlockput ip
  endOp
  return -1

def exec (path : Path) (mem : ExecMem) : K ℤ := do
  beginOp
  match ← namei path with
  | none =>
      endOp
      return -1
  | some ip =>
      ilock ip
      match ← readKernel ip 0 Vm.elfhdrSize with
      | none => execBad ip
      | some l =>
          let elf := Vm.elfhdr l
          if elf.magic ≠ Vm.ELF_MAGIC ∨ !mem.pagetable then
            execBad ip
          else if ← loadFrom ip mem elf.phnum 0 (elf.phoff % 2 ^ 32) then
            iunlockput ip
            endOp
            return mem.ret
          else
            execBad ip

/-- `args` says whether the arguments could be fetched. -/
def sysExec (path : Option Path) (args : Bool) (mem : ExecMem) : K ℤ := do
  match path with
  | none => return -1
  | some path => if args then exec path mem else return -1

end Xv6
