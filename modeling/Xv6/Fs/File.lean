import Xv6.Fs.Dir

/-!
File structures, `file.c`, and the descriptor functions of `sysfile.c`. A
`struct file *` is an index into the file table. Pipes and devices are reached
through a file but hold no file-system state.
-/

namespace Xv6

def filealloc : K (Option ℕ) := do
  match allocFile (← get).ftable with
  | some (f, t) =>
      modify fun s => { s with ftable := t }
      return some f
  | none => return none

def modifyFile (f : ℕ) (g : File → File) : K Unit :=
  modify fun s => { s with ftable := s.ftable.set f (g (s.ftable.get f)) }

def getFile (f : ℕ) : K File := return (← get).ftable.get f

def filedup (f : ℕ) : K ℕ := do
  if (← getFile f).ref < 1 then panic .filedup
  modifyFile f fun x => { x with ref := x.ref + 1 }
  return f

def fileclose (f : ℕ) : K Unit := do
  if (← getFile f).ref < 1 then panic .fileclose
  modifyFile f fun x => { x with ref := x.ref - 1 }
  if (← getFile f).ref = 0 then
    let ff ← getFile f
    modifyFile f fun x => { x with ref := 0, type := .none }
    if ff.type = .inode ∨ ff.type = .device then
      beginOp
      iput ff.ip
      endOp

/-- A C `int` converted to `uint`. -/
def uint (n : ℤ) : ℕ := (n % 2 ^ 32).toNat

/-- Reading a pipe or a device leaves the file system alone; `ext` is what it returns. -/
def fileread (f addr : ℕ) (n ext : ℤ) : K ℤ := do
  let x ← getFile f
  if !x.readable then
    return -1
  else
    match x.type with
    | .pipe => return ext
    | .device => return if x.major < 0 ∨ x.major ≥ NDEV then -1 else ext
    | .inode =>
        ilock x.ip
        let (r, _) ← readi x.ip (.user addr) x.off (uint n)
        match r with
        | some r => modifyFile f fun x => { x with off := (x.off + r) % 2 ^ 32 }
        | none => pure ()
        iunlock x.ip
        return (r.elim (-1) fun r => (r : ℤ))
    | .none => panic .fileread

/-- Most bytes one transaction of `filewrite` writes. -/
def filewriteMax : ℕ := (MAXOPBLOCKS - 1 - 1 - 2) / 2 * BSIZE

/-- The loop of `filewrite` from byte `i` on. A round that does not break writes at
least one byte, so `n` rounds are enough. -/
def filewriteLoop (f addr n : ℕ) : ℕ → ℕ → K ℕ
  | 0, i => return i
  | fuel + 1, i => do
      if i < n then
        let x ← getFile f
        let n1 := min (n - i) filewriteMax
        beginOp
        ilock x.ip
        let r ← writei x.ip (.user ((addr + i) % 2 ^ 64)) x.off n1
        match r with
        | some r => modifyFile f fun x => { x with off := (x.off + r) % 2 ^ 32 }
        | none => pure ()
        iunlock x.ip
        endOp
        if r = some n1 then filewriteLoop f addr n fuel (i + n1) else return i
      else
        return i

def filewrite (f addr : ℕ) (n ext : ℤ) : K ℤ := do
  let x ← getFile f
  if !x.writable then
    return -1
  else
    match x.type with
    | .pipe => return ext
    | .device => return if x.major < 0 ∨ x.major ≥ NDEV then -1 else ext
    | .inode =>
        -- `while(i < n)` does not run at all for `n <= 0`
        let i ← filewriteLoop f addr n.toNat n.toNat 0
        return if (i : ℤ) = n then n else -1
    | .none => panic .filewrite

/-- The file behind descriptor `fd` of the current process. -/
def argfd (fd : ℤ) : K (Option ℕ) := do
  if fd < 0 ∨ fd ≥ NOFILE then return none else return (← myproc).ofile.get fd.toNat

def fdalloc (f : ℕ) : K (Option ℕ) := do
  let p ← myproc
  match (List.range NOFILE).find? fun fd => p.ofile.get fd = none with
  | some fd =>
      modifyProc fun p => { p with ofile := p.ofile.set fd (some f) }
      return some fd
  | none => return none

end Xv6
