import Xv6.Vm.Proc

/-!
`exec.c`. The executable is given by its contents; of the file system
only the calls that `exec` makes to it are kept.
-/

namespace Xv6
namespace Vm

structure Contents where
  size : ℕ
  data : Bytes

def Contents.readi (c : Contents) (off n : ℕ) : List UInt8 :=
  if off > c.size ∨ (off + n) % 2 ^ 32 < off then []
  else c.data.getBytes off (min n (c.size - off))

def ELF_MAGIC : ℕ := 0x464C457F
def ELF_PROG_LOAD : ℕ := 1

/-- `sizeof(struct elfhdr)` and `sizeof(struct proghdr)`. -/
def elfhdrSize : ℕ := 64
def proghdrSize : ℕ := 56

def field (hdr : List UInt8) (off n : ℕ) : ℕ := Bytes.ofLE ((hdr.drop off).take n)

structure Elfhdr where
  magic : ℕ
  entry : ℕ
  phoff : ℕ
  phnum : ℕ

def elfhdr (l : List UInt8) : Elfhdr := ⟨field l 0 4, field l 24 8, field l 32 8, field l 56 2⟩

structure Proghdr where
  type : ℕ
  off : ℕ
  vaddr : ℕ
  filesz : ℕ
  memsz : ℕ

def proghdr (l : List UInt8) : Proghdr :=
  ⟨field l 0 4, field l 8 8, field l 16 8, field l 32 8, field l 40 8⟩

/-- The loop of `loadseg` at byte `i` of the segment; `offset`, `sz` and `i` are `uint`. -/
def loadsegFrom (pagetable va : ℕ) (ip : Contents) (offset sz : ℕ) : ℕ → ℕ → M Bool
  | 0, _ => return true
  | fuel + 1, i => do
      let pa ← walkaddr pagetable ((va + i) % 2 ^ 64)
      if pa = 0 then panic .loadseg
      let n := min (sz - i) PGSIZE
      let l := ip.readi ((offset + i) % 2 ^ 32) n
      writeBytes pa l
      if l.length ≠ n then return false
      else loadsegFrom pagetable va ip offset sz fuel (i + PGSIZE)

def loadseg (pagetable va : ℕ) (ip : Contents) (offset sz : ℕ) : M Bool :=
  loadsegFrom pagetable va ip offset sz (pages sz) 0

/-- The loop over the program headers; the size it got to, and whether it got to the
end. -/
def loadFrom (k : Layout) (pagetable : ℕ) (ip : Contents) : ℕ → ℕ → ℕ → M (ℕ × Bool)
  | 0, _, sz => return (sz, true)
  | n + 1, off, sz => do
      let l := ip.readi off proghdrSize
      if l.length ≠ proghdrSize then
        return (sz, false)
      else
        let ph := proghdr l
        let next := (off + proghdrSize) % 2 ^ 32
        if ph.type ≠ ELF_PROG_LOAD then
          loadFrom k pagetable ip n next sz
        else if ph.memsz < ph.filesz then
          return (sz, false)
        else if (ph.vaddr + ph.memsz) % 2 ^ 64 < ph.vaddr then
          return (sz, false)
        else
          let sz1 ← uvmalloc k pagetable sz ((ph.vaddr + ph.memsz) % 2 ^ 64)
          if sz1 = 0 then
            return (sz, false)
          else if ph.vaddr % PGSIZE ≠ 0 then
            return (sz1, false)
          else if ← loadseg pagetable ph.vaddr ip (ph.off % 2 ^ 32) (ph.filesz % 2 ^ 32) then
            loadFrom k pagetable ip n next sz1
          else
            return (sz1, false)

def State.cstring (s : State) (a : ℕ) : List UInt8 :=
  (s.bytes a PGSIZE).takeWhile (· ≠ 0)

/-- The loop that pushes the argument strings: the stack pointer and the contents of
`ustack` at the end, unless there is no room. The stack pointer is a `uint64`. -/
def pushArgs (pagetable stackbase : ℕ) : List ℕ → ℕ → List ℕ → M (Option (ℕ × List ℕ))
  | [], sp, ustack => return some (sp, ustack)
  | a :: argv, sp, ustack => do
      if ustack.length ≥ MAXARG then
        return none
      else
        let str := (← get).cstring a
        let sp := (sp + 2 ^ 64 - (str.length + 1)) % 2 ^ 64
        let sp := sp - sp % 16
        if sp < stackbase then
          return none
        else if ← copyout pagetable sp (str ++ [0]) then
          pushArgs pagetable stackbase argv sp (ustack ++ [sp])
        else
          return none

/-- The arguments on the new stack, above `stackbase`: the stack pointer, unless there
is no room. -/
def pushStack (pagetable stackbase sp : ℕ) (argv : List ℕ) : M (Option ℕ) := do
  match ← pushArgs pagetable stackbase argv sp [] with
  | none => return none
  | some (sp, ustack) =>
      let sp := (sp + 2 ^ 64 - (argv.length + 1) * 8 % 2 ^ 64) % 2 ^ 64
      let sp := sp - sp % 16
      if sp < stackbase then
        return none
      else if ← copyout pagetable sp ((ustack ++ [0]).flatMap (Bytes.le 8)) then
        return some sp
      else
        return none

/-- The part of the path after its last slash. -/
def lastElem (path : List UInt8) : List UInt8 := (path.reverse.takeWhile (· ≠ 47)).reverse

/-- `safestrcpy` into `p->name`. -/
def procName (path : List UInt8) : List UInt8 := (lastElem path).take 15

/-- `exec` after the program has been read in, of size `sz`. -/
def execStack (k : Layout) (p : ℕ) (path : List UInt8) (argv : List ℕ) (entry pagetable sz : ℕ) :
    M ℤ := do
  let oldsz := (← getProc p).sz
  let sz := PGROUNDUP sz
  let sz1 ← uvmalloc k pagetable sz ((sz + 2 * PGSIZE) % 2 ^ 64)
  if sz1 = 0 then
    procFreepagetable k pagetable sz
    return -1
  else
    uvmclear pagetable (sz1 - 2 * PGSIZE)
    match ← pushStack pagetable (sz1 - PGSIZE) sz1 argv with
    | none =>
        procFreepagetable k pagetable sz1
        return -1
    | some sp =>
        let x ← getProc p
        write64 (x.trapframe + a1Off) sp
        modifyProc p fun x =>
          { x with name := procName path, pagetable := pagetable, sz := sz1 }
        write64 (x.trapframe + epcOff) entry
        write64 (x.trapframe + spOff) sp
        procFreepagetable k x.pagetable oldsz
        return argv.length

/-- `iunlockput(ip)` and `end_op()`. -/
def execDone : M Unit := do
  record .iunlockput
  record .endOp

/-- `exec` by process `p`; `file` is what `namei` finds. -/
def exec (k : Layout) (p : ℕ) (file : Option Contents) (path : List UInt8) (argv : List ℕ) :
    M ℤ := do
  record .beginOp
  record .namei
  match file with
  | none =>
      record .endOp
      return -1
  | some ip =>
      record .ilock
      let l := ip.readi 0 elfhdrSize
      let elf := elfhdr l
      if l.length ≠ elfhdrSize ∨ elf.magic ≠ ELF_MAGIC then
        execDone
        return -1
      else
        let pagetable ← procPagetable k p
        if pagetable = 0 then
          execDone
          return -1
        else
          let (sz, ok) ← loadFrom k pagetable ip elf.phnum (elf.phoff % 2 ^ 32) 0
          if ok then
            execDone
            execStack k p path argv elf.entry pagetable sz
          else
            procFreepagetable k pagetable sz
            execDone
            return -1

end Vm
end Xv6
